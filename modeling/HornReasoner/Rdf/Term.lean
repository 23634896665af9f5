/-! Terms and triples.

A term is a constant (IRI or literal), a blank node or a variable; a triple of
terms is both a fact and a pattern. Terms are ordered by kind first (IRIs,
literals, blank nodes, variables) and by their texts after that, triples position
by position. -/
namespace HornReasoner

/-- A named placeholder, scoped to one rule and written `?name`. -/
structure Variable where
  name : String
deriving DecidableEq, Repr, Inhabited

namespace Variable

instance : Ord Variable := ⟨compareOn name⟩

instance : Std.TransOrd Variable := inferInstanceAs (Std.TransCmp (compareOn name))

instance : Std.LawfulEqOrd Variable where
  eq_of_compare {a b} h := by
    cases a; cases b
    exact congrArg mk (Std.LawfulEqOrd.eq_of_compare (α := String) h)

def render (v : Variable) : String := "?" ++ v.name

end Variable

/-- A lexical form with at most a datatype IRI or a language tag in practice; nothing
forbids both. -/
structure Literal where
  lexical : String
  datatype : Option String
  language : Option String
deriving DecidableEq, Repr, Inhabited

namespace Literal

def plain (lexical : String) : Literal := ⟨lexical, none, none⟩

def typed (lexical datatype : String) : Literal := ⟨lexical, some datatype, none⟩

def tagged (lexical language : String) : Literal := ⟨lexical, none, some language⟩

/-- A backslash stands before each quote and each backslash; nothing else is escaped. -/
def escape (s : List Char) : List Char :=
  s.flatMap fun c => if c = '\\' ∨ c = '"' then ['\\', c] else [c]

/-- The language tag wins over the datatype. -/
def render (l : Literal) : String :=
  let quoted := "\"" ++ String.ofList (escape l.lexical.toList) ++ "\""
  match l.language, l.datatype with
  | some tag, _ => quoted ++ "@" ++ tag
  | none, some iri => quoted ++ "^^<" ++ iri ++ ">"
  | none, none => quoted

end Literal

inductive Term where
  | iri (iri : String)
  | literal (value : Literal)
  | blank (label : String)
  | var (name : Variable)
deriving DecidableEq, Repr, Inhabited

namespace Term

/-! ### Order -/

/-- The kinds in order. -/
def rank : Term → Nat
  | iri _ => 0
  | literal _ => 1
  | blank _ => 2
  | var _ => 3

/-- The IRI, lexical form, label or name. -/
def text : Term → String
  | iri s => s
  | literal l => l.lexical
  | blank s => s
  | var v => v.name

def datatype? : Term → Option String
  | literal l => l.datatype
  | _ => none

def language? : Term → Option String
  | literal l => l.language
  | _ => none

/-- By kind, then text, then datatype and language, an absent one first. -/
def order : Term → Term → Ordering :=
  compareLex (compareOn rank) (compareLex (compareOn text)
    (compareLex (compareOn datatype?) (compareOn language?)))

instance : Ord Term := ⟨order⟩

instance : Std.TransOrd Term :=
  inferInstanceAs (Std.TransCmp (compareLex (compareOn rank) (compareLex (compareOn text)
    (compareLex (compareOn datatype?) (compareOn language?)))))

theorem eq_of_texts {a b : Term} (hr : a.rank = b.rank) (ht : a.text = b.text)
    (hd : a.datatype? = b.datatype?) (hl : a.language? = b.language?) : a = b := by
  cases a <;> cases b <;> simp_all [rank, text, datatype?, language?]
  · rename_i l m
    cases l; cases m
    simp_all
  · rename_i v w
    cases v; cases w
    simp_all

instance : Std.LawfulEqOrd Term where
  eq_of_compare {a b} h := by
    change order a b = .eq at h
    simp only [order, compareLex_eq_eq, compareOn] at h
    exact eq_of_texts (Std.LawfulEqOrd.eq_of_compare h.1)
      (Std.LawfulEqOrd.eq_of_compare h.2.1) (Std.LawfulEqOrd.eq_of_compare h.2.2.1)
      (Std.LawfulEqOrd.eq_of_compare h.2.2.2)

/-! ### Kinds -/

def isVariable : Term → Bool
  | var _ => true
  | _ => false

def isBlank : Term → Bool
  | blank _ => true
  | _ => false

/-- Neither a variable nor a blank node. -/
def isGround : Term → Bool
  | iri _ | literal _ => true
  | _ => false

def var? : Term → Option Variable
  | var v => some v
  | _ => none

def iri? : Term → Option String
  | iri s => some s
  | _ => none

/-- Nothing inside an IRI, a label or a name is escaped. -/
def render : Term → String
  | iri s => "<" ++ s ++ ">"
  | literal l => l.render
  | blank label => "_:" ++ label
  | var v => v.render

end Term

structure Triple where
  subject : Term
  predicate : Term
  object : Term
deriving DecidableEq, Repr, Inhabited

namespace Triple

/-- Position by position. -/
def order : Triple → Triple → Ordering :=
  compareLex (compareOn subject) (compareLex (compareOn predicate) (compareOn object))

instance : Ord Triple := ⟨order⟩

instance : Std.TransOrd Triple :=
  inferInstanceAs (Std.TransCmp
    (compareLex (compareOn subject) (compareLex (compareOn predicate) (compareOn object))))

instance : Std.LawfulEqOrd Triple where
  eq_of_compare {a b} h := by
    change order a b = .eq at h
    simp only [order, compareLex_eq_eq, compareOn] at h
    cases a; cases b
    congr 1
    · exact Std.LawfulEqOrd.eq_of_compare h.1
    · exact Std.LawfulEqOrd.eq_of_compare h.2.1
    · exact Std.LawfulEqOrd.eq_of_compare h.2.2

def terms (t : Triple) : List Term := [t.subject, t.predicate, t.object]

/-- The variables in subject, predicate, object order, repetitions kept. -/
def vars (t : Triple) : List Variable := t.terms.filterMap Term.var?

def hasVariables (t : Triple) : Bool := t.terms.any Term.isVariable

def isGround (t : Triple) : Bool := t.terms.all Term.isGround

/-- The same function applied at the three positions. -/
def map (f : Term → Term) (t : Triple) : Triple := ⟨f t.subject, f t.predicate, f t.object⟩

/-- The three terms with blanks between, as inside formulas and rules. -/
def renderBare (t : Triple) : String :=
  t.subject.render ++ " " ++ t.predicate.render ++ " " ++ t.object.render

def render (t : Triple) : String := t.renderBare ++ " ."

end Triple

end HornReasoner
