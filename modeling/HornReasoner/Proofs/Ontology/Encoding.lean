import HornReasoner.Proofs.Ontology.Description
import HornReasoner.Proofs.Order.Permutation

/-! Class expressions as triples.

An expression is written with a blank node for each anonymous class, each inverse property and
each cell of a collection, numbered from a given number on; `label` names the nodes, no two alike.
A graph that has these triples, and about these nodes no others but their types, is read back as
the expression (`readClass_encode`). -/
namespace HornReasoner

open Vocabulary

/-! ### Writing -/

/-- What stands for an expression, the triples that describe it, and the number of the next blank
node. -/
structure Written (ρ : Type) where
  root : ρ
  triples : List Triple
  next : Nat

namespace Written
variable (label : Nat → String)

/-- A blank node with its predicates and objects, in front of other triples. -/
def describe (n : Nat) (facts : List (String × Term)) (others : List Triple) (next : Nat) :
    Written Term :=
  ⟨.blank (label n), facts.map (fun f => ⟨.blank (label n), .iri f.1, f.2⟩) ++ others, next⟩

/-- The cells of a collection. -/
def cells : List Term → Nat → Written Term
  | [], n => ⟨.iri Rdf.nil, [], n⟩
  | item :: rest, n =>
    let tail := cells rest (n + 1)
    describe label n [(Rdf.first, item), (Rdf.rest, tail.root)] tail.triples tail.next

end Written

def PropertyExpr.encode (label : Nat → String) : PropertyExpr → Nat → Written Term
  | named p, n => ⟨p, [], n⟩
  | inverseOf inner, n =>
    let below := inner.encode label (n + 1)
    .describe label n [(Owl.inverseOf, below.root)] below.triples below.next

def CardinalityKind.predicate : CardinalityKind → String
  | min => Owl.minCardinality
  | max => Owl.maxCardinality
  | exact => Owl.cardinality

namespace Written
variable (label : Nat → String)

/-- A class of what is in a collection. -/
def combination (predicate : String) (items : Written (List Term)) (n : Nat) : Written Term :=
  let list := cells label items.root items.next
  describe label n [(predicate, list.root)] (items.triples ++ list.triples) list.next

/-- A restriction of a property by a predicate with its filler. -/
def restriction (property : PropertyExpr) (predicate : String) (filler : Nat → Written Term)
    (n : Nat) : Written Term :=
  let role := property.encode label (n + 1)
  let range := filler role.next
  describe label n [(Owl.onProperty, role.root), (predicate, range.root)]
    (role.triples ++ range.triples) range.next

end Written

namespace ClassExpr

mutual

def encode (label : Nat → String) : ClassExpr → Nat → Written Term
  | named c, n => ⟨c, [], n⟩
  | thing, n => ⟨.iri Owl.thing, [], n⟩
  | nothing, n => ⟨.iri Owl.nothing, [], n⟩
  | intersectionOf parts, n => .combination label Owl.intersectionOf (encodeAll label parts (n + 1)) n
  | unionOf parts, n => .combination label Owl.unionOf (encodeAll label parts (n + 1)) n
  | complementOf inner, n =>
    let below := inner.encode label (n + 1)
    .describe label n [(Owl.complementOf, below.root)] below.triples below.next
  | oneOf items, n => .combination label Owl.oneOf ⟨items, [], n + 1⟩ n
  | someValuesFrom property filler, n =>
    .restriction label property Owl.someValuesFrom (filler.encode label) n
  | allValuesFrom property filler, n =>
    .restriction label property Owl.allValuesFrom (filler.encode label) n
  | hasValue property value, n => .restriction label property Owl.hasValue (⟨value, [], ·⟩) n
  | cardinality kind property value, n =>
    .restriction label property kind.predicate (⟨value, [], ·⟩) n

def encodeAll (label : Nat → String) : List ClassExpr → Nat → Written (List Term)
  | [], n => ⟨[], [], n⟩
  | part :: rest, n =>
    let first := part.encode label n
    let others := encodeAll label rest first.next
    ⟨first.root :: others.root, first.triples ++ others.triples, others.next⟩

end

mutual

/-- Classes are named by IRIs that have no meaning of their own, properties by anything but blank
nodes. -/
def Writable : ClassExpr → Prop
  | named c => ∃ iri, c = .iri iri ∧ iri ≠ Owl.thing ∧ iri ≠ Owl.nothing
  | thing => True
  | nothing => True
  | intersectionOf parts => AllWritable parts
  | unionOf parts => AllWritable parts
  | complementOf inner => inner.Writable
  | oneOf _ => True
  | someValuesFrom property filler => property.AllTerms (·.isBlank = false) ∧ filler.Writable
  | allValuesFrom property filler => property.AllTerms (·.isBlank = false) ∧ filler.Writable
  | hasValue property _ => property.AllTerms (·.isBlank = false)
  | cardinality _ property _ => property.AllTerms (·.isBlank = false)

def AllWritable : List ClassExpr → Prop
  | [] => True
  | part :: rest => part.Writable ∧ AllWritable rest

end

theorem allWritable_iff {parts : List ClassExpr} :
    AllWritable parts ↔ ∀ part ∈ parts, part.Writable := by
  induction parts with
  | nil => simp [AllWritable]
  | cons part rest ih => simp [AllWritable, ih]

end ClassExpr

/-! ### Numbers -/

section
variable {label : Nat → String}

/-- The triples are about nodes from the number `n` on. -/
structure Written.Numbered {ρ : Type} (label : Nat → String) (n : Nat) (w : Written ρ) : Prop where
  le : n ≤ w.next
  subject : ∀ t ∈ w.triples, ∃ k, n ≤ k ∧ k < w.next ∧ t.subject = .blank (label k)

namespace Written

theorem Numbered.bare {ρ : Type} (root : ρ) (n : Nat) : Numbered label n ⟨root, [], n⟩ :=
  ⟨Nat.le_refl n, by simp⟩

theorem Numbered.describe {n : Nat} {facts : List (String × Term)} {ρ : Type} {w : Written ρ}
    (h : w.Numbered label (n + 1)) :
    (Written.describe label n facts w.triples w.next).Numbered label n where
  le := Nat.le_of_lt h.le
  subject t ht := by
    rcases List.mem_append.mp ht with ht | ht
    · obtain ⟨f, _, rfl⟩ := List.mem_map.mp ht
      exact ⟨n, Nat.le_refl n, h.le, rfl⟩
    · obtain ⟨k, hle, hlt, hk⟩ := h.subject t ht
      exact ⟨k, Nat.le_of_succ_le hle, hlt, hk⟩

theorem Numbered.append {ρ τ υ : Type} {n : Nat} {w : Written ρ} {w' : Written τ}
    (h : w.Numbered label n) (h' : w'.Numbered label w.next) (root : υ) :
    Numbered label n ⟨root, w.triples ++ w'.triples, w'.next⟩ where
  le := h.le.trans h'.le
  subject t ht := by
    rcases List.mem_append.mp ht with ht | ht
    · obtain ⟨k, hle, hlt, hk⟩ := h.subject t ht
      exact ⟨k, hle, Nat.lt_of_lt_of_le hlt h'.le, hk⟩
    · obtain ⟨k, hle, hlt, hk⟩ := h'.subject t ht
      exact ⟨k, h.le.trans hle, hlt, hk⟩

theorem numbered_cells (items : List Term) (n : Nat) : (cells label items n).Numbered label n := by
  induction items generalizing n with
  | nil => exact .bare _ n
  | cons item rest ih => exact (ih (n + 1)).describe

end Written

theorem PropertyExpr.numbered_encode (property : PropertyExpr) (n : Nat) :
    (property.encode label n).Numbered label n := by
  induction property generalizing n with
  | named p => exact .bare p n
  | inverseOf inner ih => exact (ih (n + 1)).describe

theorem Written.Numbered.combination {predicate : String} {items : Written (List Term)} {n : Nat}
    (h : items.Numbered label (n + 1)) :
    (Written.combination label predicate items n).Numbered label n :=
  Numbered.describe (w := ⟨(), _, _⟩) (h.append (numbered_cells items.root items.next) ())

theorem Written.Numbered.restriction {property : PropertyExpr} {predicate : String}
    {filler : Nat → Written Term} (h : ∀ m, (filler m).Numbered label m) (n : Nat) :
    (Written.restriction label property predicate filler n).Numbered label n :=
  Numbered.describe (w := ⟨(), _, _⟩) ((property.numbered_encode (n + 1)).append (h _) ())

namespace ClassExpr

theorem numbered_encodeAll {parts : List ClassExpr}
    (h : ∀ part ∈ parts, ∀ n, (part.encode label n).Numbered label n) (n : Nat) :
    (encodeAll label parts n).Numbered label n := by
  induction parts generalizing n with
  | nil => exact .bare [] n
  | cons part rest ih =>
    obtain ⟨hpart, hrest⟩ := List.forall_mem_cons.mp h
    rw [encodeAll]
    exact (hpart n).append (ih hrest _) _

theorem numbered_encode (cls : ClassExpr) (n : Nat) : (cls.encode label n).Numbered label n := by
  induction cls generalizing n with
  | named c => rw [encode]; exact .bare c n
  | thing => rw [encode]; exact .bare _ n
  | nothing => rw [encode]; exact .bare _ n
  | intersectionOf parts ih => rw [encode]; exact (numbered_encodeAll ih (n + 1)).combination
  | unionOf parts ih => rw [encode]; exact (numbered_encodeAll ih (n + 1)).combination
  | complementOf inner ih => rw [encode]; exact (ih (n + 1)).describe
  | oneOf items => rw [encode]; exact (Written.Numbered.bare items (n + 1)).combination
  | someValuesFrom property filler ih => rw [encode]; exact .restriction ih n
  | allValuesFrom property filler ih => rw [encode]; exact .restriction ih n
  | hasValue property value => rw [encode]; exact .restriction (fun m => .bare value m) n
  | cardinality kind property value => rw [encode]; exact .restriction (fun m => .bare value m) n

end ClassExpr

end

/-! ### Graphs that have the triples -/

namespace Written

/-- The graph has the triples, and about their nodes no others but types. -/
structure EmbeddedIn {ρ : Type} (label : Nat → String) (n : Nat) (w : Written ρ) (g : Graph) :
    Prop where
  mem : ∀ t ∈ w.triples, t ∈ g.toList
  only : ∀ t ∈ g.toList, t ∈ w.triples ∨ t.predicate = .iri Rdf.type ∨
    ∀ k, n ≤ k → k < w.next → t.subject ≠ .blank (label k)

section
variable {label : Nat → String} {g : Graph} {ρ τ υ : Type} {n : Nat} {w : Written ρ}
  {w' : Written τ} {facts : List (String × Term)}

/-- What is described behind a node is embedded as well. -/
theorem EmbeddedIn.others (hlabel : label.Injective)
    (h : (describe label n facts w.triples w.next).EmbeddedIn label n g) :
    w.EmbeddedIn label (n + 1) g where
  mem t ht := h.mem t (List.mem_append_right _ ht)
  only t ht := by
    rcases h.only t ht with hin | htype | hnode
    · rcases List.mem_append.mp hin with hin | hin
      · obtain ⟨f, _, rfl⟩ := List.mem_map.mp hin
        refine .inr (.inr fun k hk _ heq => ?_)
        have hnk := hlabel (Term.blank.inj heq)
        omega
      · exact .inl hin
    · exact .inr (.inl htype)
    · exact .inr (.inr fun k hk => hnode k (Nat.le_of_succ_le hk))

theorem EmbeddedIn.left (hlabel : label.Injective) (hw' : w'.Numbered label w.next) {root : υ}
    (h : EmbeddedIn label n ⟨root, w.triples ++ w'.triples, w'.next⟩ g) : w.EmbeddedIn label n g where
  mem t ht := h.mem t (List.mem_append_left _ ht)
  only t ht := by
    rcases h.only t ht with hin | htype | hnode
    · refine (List.mem_append.mp hin).imp_right fun hin => .inr fun k _ hlt heq => ?_
      obtain ⟨j, hle, _, hj⟩ := hw'.subject t hin
      have hjk := hlabel (Term.blank.inj (hj.symm.trans heq))
      omega
    · exact .inr (.inl htype)
    · exact .inr (.inr fun k hk hlt => hnode k hk (Nat.lt_of_lt_of_le hlt hw'.le))

theorem EmbeddedIn.right (hlabel : label.Injective) (hw : w.Numbered label n) {root : υ}
    (h : EmbeddedIn label n ⟨root, w.triples ++ w'.triples, w'.next⟩ g) :
    w'.EmbeddedIn label w.next g where
  mem t ht := h.mem t (List.mem_append_right _ ht)
  only t ht := by
    rcases h.only t ht with hin | htype | hnode
    · refine (List.mem_append.mp hin).symm.imp_right fun hin => .inr fun k hle _ heq => ?_
      obtain ⟨j, _, hlt, hj⟩ := hw.subject t hin
      have hjk := hlabel (Term.blank.inj (hj.symm.trans heq))
      omega
    · exact .inr (.inl htype)
    · exact .inr (.inr fun k hk => hnode k (hw.le.trans hk))

end

end Written

namespace Ontology

open TripleSource Written

/-- The node has these predicates and objects, and perhaps types. -/
def HasFacts (g : Graph) (node : Term) (facts : List (String × Term)) : Prop :=
  ∀ predicate, predicate ≠ Rdf.type →
    objects g node (.iri predicate) = (facts.lookup predicate).toList

section
variable {label : Nat → String} {g : Graph} {n : Nat} {facts : List (String × Term)} {node : Term}
  {terms : List Term}

theorem lookup_eq_some_iff_mem (hfacts : (facts.map Prod.fst).Nodup) {predicate : String}
    {o : Term} : facts.lookup predicate = some o ↔ (predicate, o) ∈ facts := by
  rw [List.lookup_eq_some_iff]
  constructor
  · rintro ⟨before, after, rfl, _⟩
    simp
  · intro hmem
    obtain ⟨before, after, rfl⟩ := List.append_of_mem hmem
    refine ⟨before, after, rfl, fun f hf => bne_iff_ne.mpr fun heq => ?_⟩
    rw [List.map_append, List.nodup_append] at hfacts
    exact hfacts.2.2 f.1 (List.mem_map_of_mem hf) predicate (by simp) heq.symm

theorem hasFacts_of_embedded {ρ : Type} {w : Written ρ} (hlabel : label.Injective)
    (hw : w.Numbered label (n + 1)) (hfacts : (facts.map Prod.fst).Nodup)
    (h : (describe label n facts w.triples w.next).EmbeddedIn label n g) :
    HasFacts g (.blank (label n)) facts := by
  intro predicate hp
  have hmem : ∀ o, o ∈ objects g (.blank (label n)) (.iri predicate) ↔
      o ∈ (facts.lookup predicate).toList := by
    intro o
    rw [Graph.mem_objects, Option.mem_toList]
    constructor
    · intro ht
      rcases h.only _ ht with hin | htype | hnode
      · rcases List.mem_append.mp hin with hin | hin
        · obtain ⟨⟨q, u⟩, hf, heq⟩ := List.mem_map.mp hin
          cases heq
          exact (lookup_eq_some_iff_mem hfacts).mpr hf
        · obtain ⟨k, hk, _, heq⟩ := hw.subject _ hin
          have hnk := hlabel (Term.blank.inj heq)
          omega
      · exact absurd (Term.iri.inj htype) hp
      · exact absurd rfl (hnode n (Nat.le_refl n) hw.le)
    · intro hlookup
      refine h.mem _ (List.mem_append_left _ ?_)
      exact List.mem_map.mpr
        ⟨(predicate, o), (lookup_eq_some_iff_mem hfacts).mp hlookup, rfl⟩
  have hnodup : (facts.lookup predicate).toList.Nodup := by
    cases facts.lookup predicate <;> simp
  have hperm := (List.perm_ext_iff_of_nodup (g.nodup_objects _ _) hnodup).mpr hmem
  cases hlookup : facts.lookup predicate with
  | none =>
    rw [hlookup] at hperm
    exact hperm.eq_nil
  | some o =>
    rw [hlookup] at hperm
    exact List.perm_singleton.mp hperm

namespace HasFacts

theorem single_eq (h : HasFacts g node facts) {predicate : String} (hp : predicate ≠ Rdf.type) :
    single g node predicate = pure (facts.lookup predicate) := by
  rw [single, h predicate hp]
  cases facts.lookup predicate <;> rfl

theorem value_eq (h : HasFacts g node facts) {predicate : String} (hp : predicate ≠ Rdf.type) :
    value g node (.iri predicate) = facts.lookup predicate := by
  rw [value, h predicate hp]
  cases facts.lookup predicate <;> rfl

end HasFacts

/-! ### Reading -/

/-- None of the nodes from a number on is being read. -/
def Unread (label : Nat → String) (n : Nat) (terms : List Term) : Prop :=
  ∀ k, n ≤ k → .blank (label k) ∉ terms

theorem Unread.mono {m : Nat} (h : Unread label n terms) (hle : n ≤ m) : Unread label m terms :=
  fun k hk => h k (hle.trans hk)

theorem Unread.push (hlabel : label.Injective) (h : Unread label n terms) :
    Unread label (n + 1) (.blank (label n) :: terms) := by
  intro k hk hin
  rcases List.mem_cons.mp hin with heq | hin
  · have hkn := hlabel (Term.blank.inj heq)
    omega
  · exact h k (by omega) hin

theorem visiting_of_ok {α : Type} {t : Term} {describe : Reading α} {a : α} (ht : t ∉ terms)
    (h : describe (t :: terms) = (.ok a, t :: terms)) :
    visiting t describe terms = (.ok a, terms) := by
  rw [visiting, if_neg ht, h]
  show (Except.ok a, (t :: terms).erase t) = _
  rw [List.erase_cons_head]

theorem follow_cells (hlabel : label.Injective) {items : List Term} {fuel : Nat}
    (h : (cells label items n).EmbeddedIn label n g) (hfuel : (cells label items n).next < n + fuel)
    (hnew : Unread label n terms) :
    Collection.follow g fuel terms (cells label items n).root = .ok items := by
  have hle : n ≤ (cells label items n).next := (numbered_cells items n).le
  obtain ⟨fuel, rfl⟩ : ∃ k, fuel = k + 1 := Nat.exists_eq_add_one.mpr (by omega)
  induction items generalizing n fuel terms with
  | nil =>
    rw [Collection.follow]
    exact if_pos rfl
  | cons item rest ih =>
    have hrest : (cells label rest (n + 1)).Numbered label (n + 1) := numbered_cells rest (n + 1)
    have hfacts := hasFacts_of_embedded hlabel hrest (by simp; decide) h
    have hfuel : (cells label rest (n + 1)).next < n + (fuel + 1) := hfuel
    obtain ⟨fuel, rfl⟩ : ∃ k, fuel = k + 1 := Nat.exists_eq_add_one.mpr (by have := hrest.le; omega)
    have hnext := ih (h.others hlabel) (hnew.push hlabel) hrest.le fuel (by omega)
    have hroot : (cells label (item :: rest) n).root = .blank (label n) := rfl
    rw [hroot, Collection.follow, if_neg (by simp), if_neg (hnew n (Nat.le_refl n)),
      hfacts.value_eq (by decide), hfacts.value_eq (by decide)]
    show Except.map _ (Collection.follow g _ _ (cells label rest (n + 1)).root) = _
    rw [hnext]
    rfl

theorem items_cells (hlabel : label.Injective) {items : List Term}
    (h : (cells label items n).EmbeddedIn label n g) :
    Collection.items g (cells label items n).root = .ok items := by
  obtain ⟨nodes, hsame⟩ := exists_sameDescriptions_self g
  have hunseen := unseen_le nodes []
  have hfuel := hsame.fuel
  -- more fuel than the collection has cells and the graph has nodes
  have hlong : unseen nodes [] < (cells label items n).next + nodes.length + 1 := by omega
  exact (hsame.follow_eq (by omega) hlong).trans
    (follow_cells hlabel h (by omega) fun _ _ => List.not_mem_nil)

theorem items_of_cells (hlabel : label.Injective) {items : List Term}
    (h : (cells label items n).EmbeddedIn label n g) :
    Ontology.items g (cells label items n).root = pure items := by
  rw [Ontology.items, items_cells hlabel h]

theorem propertyFrom_encode (hlabel : label.Injective) {property : PropertyExpr}
    (hproperty : property.AllTerms (·.isBlank = false)) {fuel : Nat}
    (h : (property.encode label n).EmbeddedIn label n g)
    (hfuel : (property.encode label n).next < n + fuel) (hnew : Unread label n terms) :
    propertyFrom g fuel (property.encode label n).root terms = (.ok property, terms) := by
  have hle : n ≤ (property.encode label n).next := (property.numbered_encode n).le
  obtain ⟨fuel, rfl⟩ : ∃ k, fuel = k + 1 := Nat.exists_eq_add_one.mpr (by omega)
  induction property generalizing n fuel terms with
  | named p =>
    have hp : p.isBlank = false := hproperty
    rw [PropertyExpr.encode, propertyFrom, hp]
    rfl
  | inverseOf inner ih =>
    have hinner : (inner.encode label (n + 1)).Numbered label (n + 1) := inner.numbered_encode (n + 1)
    have hfacts := hasFacts_of_embedded hlabel hinner (by simp) h
    have hfuel : (inner.encode label (n + 1)).next < n + (fuel + 1) := hfuel
    obtain ⟨fuel, rfl⟩ : ∃ k, fuel = k + 1 :=
      Nat.exists_eq_add_one.mpr (by have := hinner.le; omega)
    have hread := ih hproperty (h.others hlabel) (hnew.push hlabel) hinner.le fuel (by omega)
    have hroot : (inner.inverseOf.encode label n).root = .blank (label n) := rfl
    rw [hroot, propertyFrom, if_neg (by simp [Term.isBlank])]
    refine visiting_of_ok (hnew n (Nat.le_refl n)) ?_
    rw [hfacts.single_eq (by decide)]
    exact bind_of_ok hread

/-- A property is read back, whatever else is being read. -/
theorem readProperty_encode (hlabel : label.Injective) {property : PropertyExpr}
    (hproperty : property.AllTerms (·.isBlank = false))
    (h : (property.encode label n).EmbeddedIn label n g) (hnew : Unread label n terms) :
    readProperty g (property.encode label n).root terms = (.ok property, terms) := by
  obtain ⟨nodes, hsame⟩ := exists_sameDescriptions_self g
  have hunseen := unseen_le nodes terms
  have hfuel := hsame.fuel
  have hlong : unseen nodes terms < (property.encode label n).next + nodes.length + 1 := by omega
  have hdepth : unseen nodes terms < depth g := by rw [depth]; omega
  have hagree := agree_propertyFrom (t := (property.encode label n).root) hsame hdepth hlong
  exact hagree.same.trans (propertyFrom_encode hlabel hproperty h (by omega) hnew)

section Class
variable {role : Term → Reading PropertyExpr} {read : Term → Reading ClassExpr}

theorem anonymous_intersectionOf {list : Term} {items : List Term} {parts : List ClassExpr}
    (hfacts : HasFacts g node [(Owl.intersectionOf, list)])
    (hlist : Ontology.items g list = pure items)
    (hparts : items.mapM read terms = (.ok parts, terms)) :
    anonymous g role read node terms = (.ok (.intersectionOf parts), terms) := by
  rw [anonymous, hfacts.single_eq (by decide)]
  show (Ontology.items g list >>= fun items => _) terms = _
  rw [hlist, pure_bind]
  exact bind_of_ok hparts

theorem anonymous_unionOf {list : Term} {items : List Term} {parts : List ClassExpr}
    (hfacts : HasFacts g node [(Owl.unionOf, list)]) (hlist : Ontology.items g list = pure items)
    (hparts : items.mapM read terms = (.ok parts, terms)) :
    anonymous g role read node terms = (.ok (.unionOf parts), terms) := by
  rw [anonymous, hfacts.single_eq (by decide), hfacts.single_eq (by decide)]
  show (Ontology.items g list >>= fun items => _) terms = _
  rw [hlist, pure_bind]
  exact bind_of_ok hparts

theorem anonymous_complementOf {root : Term} {inner : ClassExpr}
    (hfacts : HasFacts g node [(Owl.complementOf, root)])
    (hinner : read root terms = (.ok inner, terms)) :
    anonymous g role read node terms = (.ok (.complementOf inner), terms) := by
  rw [anonymous, hfacts.single_eq (by decide), hfacts.single_eq (by decide),
    hfacts.single_eq (by decide)]
  exact bind_of_ok hinner

theorem anonymous_oneOf {list : Term} {items : List Term}
    (hfacts : HasFacts g node [(Owl.oneOf, list)]) (hlist : Ontology.items g list = pure items) :
    anonymous g role read node terms = (.ok (.oneOf items), terms) := by
  rw [anonymous, hfacts.single_eq (by decide), hfacts.single_eq (by decide),
    hfacts.single_eq (by decide), hfacts.single_eq (by decide)]
  show (Ontology.items g list >>= fun items => _) terms = _
  rw [hlist]
  rfl

/-- A restriction is none of the other descriptions, and has one filler. -/
theorem anonymous_restriction {property : PropertyExpr} {predicate : String} {root filler : Term}
    (hpredicate : predicate ∈ fillerPredicates)
    (hfacts : HasFacts g node [(Owl.onProperty, root), (predicate, filler)])
    (hrole : role root terms = (.ok property, terms)) :
    anonymous g role read node terms = restrictionOf read property predicate filler terms := by
  have hlookup : ∀ q, q ≠ Owl.onProperty → q ≠ predicate →
      [(Owl.onProperty, root), (predicate, filler)].lookup q = none := by
    intro q hproperty hother
    simp only [List.lookup_cons, beq_eq_false_iff_ne.mpr hproperty, beq_eq_false_iff_ne.mpr hother,
      List.lookup_nil]
  have hnone : ∀ q ∈ [Owl.intersectionOf, Owl.unionOf, Owl.complementOf, Owl.oneOf],
      single g node q = pure none := by
    have hapart : ∀ q ∈ [Owl.intersectionOf, Owl.unionOf, Owl.complementOf, Owl.oneOf],
        q ≠ Rdf.type ∧ q ≠ Owl.onProperty ∧ ∀ p ∈ fillerPredicates, q ≠ p := by decide
    intro q hq
    obtain ⟨htype, hproperty, hother⟩ := hapart q hq
    rw [hfacts.single_eq htype, hlookup q hproperty (hother predicate hpredicate)]
  have hapart : ∀ p ∈ fillerPredicates, p ≠ Rdf.type ∧ p ≠ Owl.onProperty := by decide
  have hfillers : (fillerPredicates.flatMap fun p => (objects g node (.iri p)).map (p, ·)) =
      [(predicate, filler)] := by
    refine (flatMap_eq_of_unique (by decide) hpredicate fun p hp hne => ?_).trans ?_
    · obtain ⟨htype, hproperty⟩ := hapart p hp
      rw [hfacts p htype, hlookup p hproperty hne]
      rfl
    · obtain ⟨htype, hproperty⟩ := hapart predicate hpredicate
      rw [hfacts predicate htype]
      simp [List.lookup_cons, beq_eq_false_iff_ne.mpr hproperty]
  simp only [List.forall_mem_cons] at hnone
  obtain ⟨hintersection, hunion, hcomplement, honeOf, _⟩ := hnone
  rw [anonymous, hintersection, hunion, hcomplement, honeOf, hfacts.single_eq (by decide)]
  refine (bind_of_ok hrole).trans ?_
  rw [restriction, hfillers]

end Class

/-! ### Reading back -/

/-- The parts of a combination. -/
theorem combination_parts (hlabel : label.Injective) {predicate : String}
    {items : Written (List Term)} (hitems : items.Numbered label (n + 1))
    (h : (combination label predicate items n).EmbeddedIn label n g) :
    items.EmbeddedIn label (n + 1) g ∧ items.next ≤ (combination label predicate items n).next ∧
      ∃ list, HasFacts g (.blank (label n)) [(predicate, list)] ∧
        Ontology.items g list = pure items.root := by
  have hcells : (cells label items.root items.next).Numbered label items.next :=
    numbered_cells items.root items.next
  have hothers := EmbeddedIn.others (w := ⟨(), _, _⟩) hlabel h
  refine ⟨hothers.left hlabel hcells, hcells.le, _, ?_,
    items_of_cells hlabel (hothers.right hlabel hitems)⟩
  exact hasFacts_of_embedded (w := ⟨(), _, _⟩) hlabel (hitems.append hcells ()) (by simp) h

/-- The expression is read back from its root, whatever is being read before it. -/
def ReadBack (label : Nat → String) (g : Graph) (cls : ClassExpr) : Prop :=
  ∀ n fuel terms, cls.Writable → (cls.encode label n).EmbeddedIn label n g →
    (cls.encode label n).next < n + fuel → Unread label n terms →
    classFrom g (readProperty g) fuel (cls.encode label n).root terms = (.ok cls, terms)

theorem mapM_encodeAll (hlabel : label.Injective) {parts : List ClassExpr}
    (hback : ∀ part ∈ parts, ReadBack label g part) (hparts : ∀ part ∈ parts, part.Writable)
    {fuel : Nat} (h : (ClassExpr.encodeAll label parts n).EmbeddedIn label n g)
    (hfuel : (ClassExpr.encodeAll label parts n).next < n + fuel) (hnew : Unread label n terms) :
    (ClassExpr.encodeAll label parts n).root.mapM (classFrom g (readProperty g) fuel) terms =
      (.ok parts, terms) := by
  induction parts generalizing n with
  | nil => rfl
  | cons part rest ih =>
    obtain ⟨hfirst, hothers⟩ := List.forall_mem_cons.mp hback
    obtain ⟨hpart, hrest⟩ := List.forall_mem_cons.mp hparts
    rw [ClassExpr.encodeAll] at h hfuel ⊢
    have hbefore : (part.encode label n).Numbered label n := part.numbered_encode n
    have hbehind : (ClassExpr.encodeAll label rest (part.encode label n).next).Numbered label
        (part.encode label n).next :=
      ClassExpr.numbered_encodeAll (fun part _ => part.numbered_encode) _
    have hle := hbefore.le
    have hle' := hbehind.le
    dsimp only at hfuel ⊢
    rw [List.mapM_cons]
    rw [bind_of_ok (hfirst n fuel terms hpart (h.left hlabel hbehind) (by omega) hnew),
      bind_of_ok (ih hothers hrest (h.right hlabel hbefore) (by omega) (hnew.mono hle))]
    rfl

/-- An anonymous class is read back from what its node says. -/
theorem ReadBack.of_anonymous {cls : ClassExpr} (hlabel : label.Injective)
    (hroot : ∀ n, (cls.encode label n).root = .blank (label n))
    (h : ∀ n fuel terms, cls.Writable → (cls.encode label n).EmbeddedIn label n g →
      (cls.encode label n).next < n + 1 + fuel → Unread label (n + 1) terms →
      anonymous g (readProperty g) (classFrom g (readProperty g) fuel) (.blank (label n)) terms =
        (.ok cls, terms)) : ReadBack label g cls := by
  intro n fuel terms hcls hembedded hfuel hnew
  have hle : n ≤ (cls.encode label n).next := (cls.numbered_encode n).le
  obtain ⟨fuel, rfl⟩ : ∃ k, fuel = k + 1 := Nat.exists_eq_add_one.mpr (by omega)
  rw [hroot]
  exact visiting_of_ok (hnew n (Nat.le_refl n))
    (h n fuel _ hcls hembedded (by omega) (hnew.push hlabel))

theorem classFrom_iri {role : Term → Reading PropertyExpr} {iri : String} (hthing : iri ≠ Owl.thing)
    (hnothing : iri ≠ Owl.nothing) {fuel : Nat} :
    classFrom g role (fuel + 1) (.iri iri) terms = (.ok (.named (.iri iri)), terms) := by
  rw [classFrom, if_neg hthing, if_neg hnothing]
  rfl

/-- A restriction is read back if its filler is. -/
theorem anonymous_restriction_encode (hlabel : label.Injective) {property : PropertyExpr}
    (hproperty : property.AllTerms (·.isBlank = false)) {predicate : String}
    (hpredicate : predicate ∈ fillerPredicates) {filler : Nat → Written Term}
    (hfiller : ∀ m, (filler m).Numbered label m)
    (h : (Written.restriction label property predicate filler n).EmbeddedIn label n g)
    (hnew : Unread label (n + 1) terms) {read : Term → Reading ClassExpr} :
    ∃ m, n < m ∧ (filler m).EmbeddedIn label m g ∧
      (Written.restriction label property predicate filler n).next = (filler m).next ∧
      anonymous g (readProperty g) read (.blank (label n)) terms =
        restrictionOf read property predicate (filler m).root terms := by
  have hrole : (property.encode label (n + 1)).Numbered label (n + 1) :=
    property.numbered_encode (n + 1)
  have hothers := EmbeddedIn.others (w := ⟨(), _, _⟩) hlabel h
  have hapart : ∀ p ∈ fillerPredicates, Owl.onProperty ≠ p := by decide
  have hfacts := hasFacts_of_embedded (w := ⟨(), _, _⟩) hlabel (hrole.append (hfiller _) ())
    (by simpa using hapart predicate hpredicate) h
  exact ⟨_, hrole.le, hothers.right hlabel hrole, rfl, anonymous_restriction hpredicate hfacts
    (readProperty_encode hlabel hproperty (hothers.left hlabel (hfiller _)) hnew)⟩

theorem readBack (hlabel : label.Injective) (cls : ClassExpr) : ReadBack label g cls := by
  induction cls with
  | named c =>
    intro n fuel terms hcls _ hfuel _
    rw [ClassExpr.Writable] at hcls
    obtain ⟨iri, rfl, hthing, hnothing⟩ := hcls
    rw [ClassExpr.encode] at hfuel ⊢
    obtain ⟨fuel, rfl⟩ : ∃ k, fuel = k + 1 := Nat.exists_eq_add_one.mpr (by dsimp at hfuel; omega)
    exact classFrom_iri hthing hnothing
  | thing | nothing =>
    intro n fuel terms _ _ hfuel _
    rw [ClassExpr.encode] at hfuel ⊢
    obtain ⟨fuel, rfl⟩ : ∃ k, fuel = k + 1 := Nat.exists_eq_add_one.mpr (by dsimp at hfuel; omega)
    rfl
  | intersectionOf parts ih =>
    refine .of_anonymous hlabel (fun n => by rw [ClassExpr.encode]; rfl) ?_
    intro n fuel terms hcls h hfuel hnew
    rw [ClassExpr.Writable, ClassExpr.allWritable_iff] at hcls
    rw [ClassExpr.encode] at h hfuel
    obtain ⟨hparts, hle, list, hfacts, hlist⟩ := combination_parts hlabel
      (ClassExpr.numbered_encodeAll (fun part _ => part.numbered_encode) (n + 1)) h
    exact anonymous_intersectionOf hfacts hlist
      (mapM_encodeAll hlabel ih hcls hparts (by omega) hnew)
  | unionOf parts ih =>
    refine .of_anonymous hlabel (fun n => by rw [ClassExpr.encode]; rfl) ?_
    intro n fuel terms hcls h hfuel hnew
    rw [ClassExpr.Writable, ClassExpr.allWritable_iff] at hcls
    rw [ClassExpr.encode] at h hfuel
    obtain ⟨hparts, hle, list, hfacts, hlist⟩ := combination_parts hlabel
      (ClassExpr.numbered_encodeAll (fun part _ => part.numbered_encode) (n + 1)) h
    exact anonymous_unionOf hfacts hlist
      (mapM_encodeAll hlabel ih hcls hparts (by omega) hnew)
  | complementOf inner ih =>
    refine .of_anonymous hlabel (fun n => by rw [ClassExpr.encode]; rfl) ?_
    intro n fuel terms hcls h hfuel hnew
    rw [ClassExpr.Writable] at hcls
    rw [ClassExpr.encode] at h hfuel
    have hinner : (inner.encode label (n + 1)).Numbered label (n + 1) := inner.numbered_encode (n + 1)
    exact anonymous_complementOf (hasFacts_of_embedded hlabel hinner (by simp) h)
      (ih (n + 1) fuel terms hcls (h.others hlabel) hfuel hnew)
  | oneOf items =>
    refine .of_anonymous hlabel (fun n => by rw [ClassExpr.encode]; rfl) ?_
    intro n fuel terms _ h _ _
    rw [ClassExpr.encode] at h
    obtain ⟨_, _, list, hfacts, hlist⟩ := combination_parts hlabel (.bare items (n + 1)) h
    exact anonymous_oneOf hfacts hlist
  | someValuesFrom property filler ih | allValuesFrom property filler ih =>
    refine .of_anonymous hlabel (fun n => by rw [ClassExpr.encode]; rfl) ?_
    intro n fuel terms hcls h hfuel hnew
    rw [ClassExpr.Writable] at hcls
    rw [ClassExpr.encode] at h hfuel
    obtain ⟨m, hlt, hembedded, hnext, heq⟩ := anonymous_restriction_encode hlabel hcls.1
      (by decide) filler.numbered_encode h hnew
    rw [heq]
    exact bind_of_ok (ih m fuel terms hcls.2 hembedded (by omega) (hnew.mono hlt))
  | hasValue property value =>
    refine .of_anonymous hlabel (fun n => by rw [ClassExpr.encode]; rfl) ?_
    intro n fuel terms hcls h _ hnew
    rw [ClassExpr.Writable] at hcls
    rw [ClassExpr.encode] at h
    obtain ⟨m, _, _, _, heq⟩ := anonymous_restriction_encode hlabel hcls (by decide)
      (fun m => .bare value m) h hnew
    exact heq
  | cardinality kind property value =>
    refine .of_anonymous hlabel (fun n => by rw [ClassExpr.encode]; rfl) ?_
    intro n fuel terms hcls h _ hnew
    rw [ClassExpr.Writable] at hcls
    rw [ClassExpr.encode] at h
    obtain ⟨m, _, _, _, heq⟩ := anonymous_restriction_encode hlabel hcls
      (by cases kind <;> decide) (fun m => .bare value m) h hnew
    rw [heq]
    cases kind <;> rfl

/-- **Reading a class expression undoes writing it.** Its blank nodes are those that `label` gives
the numbers from `n` up to the next one; the graph may have any triples about other subjects, and
may give these nodes any types. -/
theorem readClass_encode (hlabel : label.Injective) {cls : ClassExpr} (hcls : cls.Writable) (n : Nat)
    (hmem : ∀ t ∈ (cls.encode label n).triples, t ∈ g.toList)
    (honly : ∀ t ∈ g.toList, t ∈ (cls.encode label n).triples ∨ t.predicate = .iri Rdf.type ∨
      ∀ k, n ≤ k → k < (cls.encode label n).next → t.subject ≠ .blank (label k)) :
    readClass g (cls.encode label n).root [] = (.ok cls, []) := by
  obtain ⟨nodes, hsame⟩ := exists_sameDescriptions_self g
  have hunseen := unseen_le nodes []
  have hfuel := hsame.fuel
  have hlong : unseen nodes [] < (cls.encode label n).next + nodes.length + 1 := by omega
  have hdepth : unseen nodes [] < depth g := by rw [depth]; omega
  have hagree := agree_classFrom (t := (cls.encode label n).root) hsame
    (fun _ => agree_readProperty hsame) hdepth hlong
  exact hagree.same.trans
    (readBack hlabel cls n _ [] hcls ⟨hmem, honly⟩ (by omega) fun _ _ => List.not_mem_nil)

/-- What stands in the relation `p` to some `A` that is one of two values; one of them is named as
the restriction itself. -/
def enumerated : ClassExpr :=
  .someValuesFrom (.inverseOf (.named (.iri "p"))) (.intersectionOf
    [.named (.iri "A"), .oneOf [.blank "0", .literal (.plain "v")]])

theorem readClass_encode_of_enumerated : Function.Injective (toString : Nat → String) ∧
    enumerated.Writable ∧
    readClass (Graph.ofList ([⟨.iri "A", .iri Rdfs.subClassOf, .blank "0"⟩,
        ⟨.blank "0", .iri Rdf.type, .iri Owl.restriction⟩] ++ (enumerated.encode toString 0).triples))
      (.blank "0") [] = (.ok enumerated, []) := by
  have hwritable : enumerated.Writable := by
    simp only [enumerated, ClassExpr.Writable, ClassExpr.AllWritable]
    exact ⟨rfl, ⟨"A", rfl, by decide, by decide⟩, trivial, trivial⟩
  refine ⟨toString_injective, hwritable, ?_⟩
  exact readClass_encode toString_injective hwritable 0 (by decide +kernel) (by decide +kernel)

end

end Ontology

end HornReasoner
