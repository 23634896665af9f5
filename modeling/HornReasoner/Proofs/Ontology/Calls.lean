import HornReasoner.Proofs.Ontology.Description
import HornReasoner.Proofs.Ontology.Membership
import HornReasoner.Proofs.Rdf.Collection

/-! The calls of the reader.

A call for an anonymous term puts the term on the list of those being read and makes the calls for
its parts. Each of these is for a term that is not on the list, and the graph describes finitely
many, so they are nested to a bounded depth. A call takes its term off the list again, whatever it
found, so calls that follow each other do not get in each other's way. A call fails as cyclic just
where the calls it makes lead back to a term on the list (`leadsBack_of_cyclic`), and where they do
it finds nothing (`LeadsBack.not_ok`). -/
namespace HornReasoner.Ontology

open TripleSource Vocabulary

/-- What the reader is called for. -/
inductive Request where
  | cls (term : Term)
  | property (term : Term)

namespace Request

def term : Request → Term
  | cls t => t
  | property t => t

/-- The term is not a name but stands for what is said about it. -/
def IsAnonymous : Request → Prop
  | cls t => ∀ s, t ≠ .iri s
  | property t => t.isBlank = true

def answer (g : Graph) : Request → Reading (ClassExpr ⊕ PropertyExpr)
  | cls t => .inl <$> readClass g t
  | property t => .inr <$> readProperty g t

/-- The calls for the items of a collection. -/
def members (g : Graph) (list : Term) : List Request :=
  match Collection.items g list with
  | .ok found => found.map cls
  | .error _ => []

/-- The calls for the filler of a restriction, if that is a class. -/
def fillers (g : Graph) (node : Term) : List Request :=
  match fillerPredicates.flatMap fun predicate =>
    (objects g node (.iri predicate)).map (predicate, ·) with
  | [(predicate, filler)] =>
    if predicate = Owl.someValuesFrom ∨ predicate = Owl.allValuesFrom then [cls filler] else []
  | _ => []

/-- The calls that a call for an anonymous term makes. The first kind of description counts; the
cells of a collection and individuals are not called for. -/
def parts (g : Graph) : Request → List Request
  | cls node =>
    match objects g node (.iri Owl.intersectionOf), objects g node (.iri Owl.unionOf),
      objects g node (.iri Owl.complementOf), objects g node (.iri Owl.oneOf),
      objects g node (.iri Owl.onProperty) with
    | [list], _, _, _, _ => members g list
    | [], [list], _, _, _ => members g list
    | [], [], [inner], _, _ => [cls inner]
    | [], [], [], [], [role] => property role :: fillers g node
    | _, _, _, _, _ => []
  | property node =>
    match objects g node (.iri Owl.inverseOf) with
    | [inner] => [property inner]
    | _ => []

end Request

/-- The calls that a call makes, and those that these make, lead back to a term being read. -/
inductive LeadsBack (g : Graph) : List Term → Request → Term → Prop where
  | here {terms : List Term} {r : Request} : r.IsAnonymous → r.term ∈ terms →
      LeadsBack g terms r r.term
  | nested {terms : List Term} {r s : Request} {n : Term} : r.IsAnonymous → r.term ∉ terms →
      s ∈ r.parts g → LeadsBack g (r.term :: terms) s n → LeadsBack g terms r n

/-- Calls one after the other, each with the list that the one before it left. -/
def answers (g : Graph) : List Request → List Term →
    List (Except OntologyError (ClassExpr ⊕ PropertyExpr)) × List Term
  | [], terms => ([], terms)
  | r :: rest, terms =>
    let (result, terms) := r.answer g terms
    let (results, terms) := answers g rest terms
    (result :: results, terms)

/-! ### Depth -/

/-- The property reader nests its calls no deeper than `depth`: what answers deeper ones does not
matter. -/
theorem readProperty_eq_iterate (g : Graph) (more : Nat) (stop : Term → Reading PropertyExpr) :
    (propertyStep g)^[depth g + more] stop = readProperty g := by
  obtain ⟨nodes, h⟩ := exists_sameDescriptions_self g
  have hfuel := h.fuel
  funext t terms
  have hle := unseen_le nodes terms
  show _ = propertyFrom g (depth g) t terms
  rw [propertyFrom_eq_iterate]
  exact (agree_iterate_propertyStep h (by rw [depth]; omega) (by rw [depth]; omega)).same

theorem readClass_eq_iterate (g : Graph) (more : Nat) (stop : Term → Reading ClassExpr) :
    (classStep g (readProperty g))^[depth g + more] stop = readClass g := by
  obtain ⟨nodes, h⟩ := exists_sameDescriptions_self g
  have hfuel := h.fuel
  funext t terms
  have hle := unseen_le nodes terms
  show _ = classFrom g (readProperty g) (depth g) t terms
  rw [classFrom_eq_iterate]
  exact (agree_iterate_classStep h (fun _ => agree_readProperty h) (by rw [depth]; omega)
    (by rw [depth]; omega)).same

/-- Fuel apart, a call is one step, with the reader for the calls it makes. -/
theorem readProperty_eq (g : Graph) : readProperty g = propertyStep g (readProperty g) :=
  calc readProperty g
    _ = (propertyStep g)^[depth g + 1] (readProperty g) := (readProperty_eq_iterate g 1 _).symm
    _ = propertyStep g ((propertyStep g)^[depth g] (readProperty g)) :=
      Function.iterate_succ_apply' ..
    _ = propertyStep g (readProperty g) := congrArg _ (readProperty_eq_iterate g 0 _)

theorem readClass_eq (g : Graph) : readClass g = classStep g (readProperty g) (readClass g) :=
  calc readClass g
    _ = (classStep g (readProperty g))^[depth g + 1] (readClass g) :=
      (readClass_eq_iterate g 1 _).symm
    _ = classStep g (readProperty g) ((classStep g (readProperty g))^[depth g] (readClass g)) :=
      Function.iterate_succ_apply' ..
    _ = classStep g (readProperty g) (readClass g) := congrArg _ (readClass_eq_iterate g 0 _)

/-! ### What an action calls for -/

/-- The action keeps the list. It finds something only if the calls all do, and fails as cyclic
only if one of them does. -/
structure Makes {α : Type} (g : Graph) (terms : List Term) (calls : List Request)
    (act : Reading α) : Prop where
  keeps : (act terms).2 = terms
  ok : ∀ a, (act terms).1 = .ok a → ∀ r ∈ calls, ∃ e, (r.answer g terms).1 = .ok e
  cyclic : ∀ n, (act terms).1 = .error (.cyclic n) →
    ∃ r ∈ calls, (r.answer g terms).1 = .error (.cyclic n)

namespace Makes
variable {α β : Type} {g : Graph} {terms : List Term} {calls calls' : List Request}
  {act : Reading α}

theorem pure (a : α) : Makes g terms [] (Pure.pure a) where
  keeps := rfl
  ok _ _ _ hr := absurd hr List.not_mem_nil
  cyclic _ h := by cases h

/-- An action that fails otherwise may have been about to make any calls. -/
theorem throw {e : OntologyError} (he : ∀ n, e ≠ .cyclic n) :
    Makes (α := α) g terms calls (MonadExcept.throw e) where
  keeps := rfl
  ok _ h := by cases h
  cyclic n h := absurd (Except.error.inj h) (he n)

theorem bind {f : α → Reading β} (h : Makes g terms calls act)
    (hf : ∀ a, Makes g terms calls' (f a)) : Makes g terms (calls ++ calls') (act >>= f) := by
  obtain ⟨hkeeps, hok, hcyclic⟩ := h
  cases hact : act terms with
  | mk result next =>
  rw [hact] at hkeeps hok hcyclic
  obtain rfl : next = terms := hkeeps
  cases result with
  | error e =>
    have hbind : (act >>= f) next = (.error e, next) := bind_of_error hact
    refine ⟨congrArg Prod.snd hbind, fun b hb => ?_, fun n hn => ?_⟩
    · rw [hbind] at hb
      cases hb
    · rw [hbind] at hn
      obtain ⟨r, hr, hanswer⟩ := hcyclic n (congrArg Except.error (Except.error.inj hn))
      exact ⟨r, List.mem_append_left _ hr, hanswer⟩
  | ok a =>
    obtain ⟨hkeeps', hok', hcyclic'⟩ := hf a
    have hbind : (act >>= f) next = f a next := bind_of_ok hact
    refine ⟨by rw [hbind, hkeeps'], fun b hb r hr => ?_, fun n hn => ?_⟩
    · rw [hbind] at hb
      exact (List.mem_append.mp hr).elim (hok a rfl r) (hok' b hb r)
    · rw [hbind] at hn
      obtain ⟨r, hr, hanswer⟩ := hcyclic' n hn
      exact ⟨r, List.mem_append_right _ hr, hanswer⟩

/-- What is done with the result in the end makes no difference. -/
theorem map (h : Makes g terms calls act) (f : α → β) : Makes g terms calls (f <$> act) := by
  have hbind := h.bind (f := fun a => Pure.pure (f a)) fun _ => .pure _
  rw [List.append_nil, bind_pure_comp] at hbind
  exact hbind

theorem mapM {as : List α} {call : α → Request} {read : α → Reading β}
    (h : ∀ a, Makes g terms [call a] (read a)) : Makes g terms (as.map call) (as.mapM read) := by
  induction as with
  | nil =>
    rw [List.mapM_nil]
    exact .pure _
  | cons a rest ih =>
    rw [List.mapM_cons, List.map_cons]
    exact (h a).bind fun b => by simpa using ih.map (b :: ·)

/-- Where there are several objects, nothing is called for. -/
theorem single {node : Term} {predicate : String} {f : Option Term → Reading β}
    (hsome : ∀ o, objects g node (.iri predicate) = [o] → Makes g terms calls (f (some o)))
    (hnone : objects g node (.iri predicate) = [] → Makes g terms calls (f none)) :
    Makes g terms calls (Ontology.single g node predicate >>= f) := by
  unfold Ontology.single
  rcases hobjects : objects g node (.iri predicate) with _ | ⟨o, _ | ⟨o', rest⟩⟩
  · exact hnone hobjects
  · exact hsome o hobjects
  · exact .throw (by simp)

end Makes

/-! ### What a description calls for -/

section Description
variable {g : Graph} {terms : List Term} {node : Term}

theorem map_apply {α β : Type} (act : Reading α) (f : α → β) (terms : List Term) :
    (f <$> act) terms = ((act terms).1.map f, (act terms).2) := by
  cases hact : act terms with
  | mk result next =>
  cases result with
  | error e => exact bind_of_error (f := fun a => pure (f a)) hact
  | ok a => exact bind_of_ok (f := fun a => pure (f a)) hact

theorem makes_of_answer {α : Type} {r : Request} {act : Reading α}
    {kind : α → ClassExpr ⊕ PropertyExpr} (hr : r.answer g = kind <$> act)
    (hkeeps : (act terms).2 = terms) : Makes g terms [r] act := by
  have hanswer : (r.answer g terms).1 = (act terms).1.map kind := by rw [hr, map_apply]
  refine ⟨hkeeps, fun a ha => ?_, fun n hn => ?_⟩
  · rw [List.forall_mem_singleton, hanswer, ha]
    exact ⟨kind a, rfl⟩
  · exact ⟨r, List.mem_singleton_self r, by rw [hanswer, hn]; rfl⟩

theorem makes_readClass (t : Term) : Makes g terms [.cls t] (readClass g t) := by
  obtain ⟨nodes, h⟩ := exists_sameDescriptions_self g
  exact makes_of_answer rfl (agree_readClass h t).keeps

theorem makes_readProperty (t : Term) : Makes g terms [.property t] (readProperty g t) := by
  obtain ⟨nodes, h⟩ := exists_sameDescriptions_self g
  exact makes_of_answer rfl (agree_readProperty h t).keeps

theorem makes_items (list : Term) : Makes g terms [] (items g list) := by
  unfold items
  cases Collection.items g list with
  | ok found => exact .pure found
  | error fault => exact .throw (by simp)

theorem makes_members {β : Type} (list : Term) (f : List ClassExpr → β) :
    Makes g terms (Request.members g list)
      (do return f (← (← items g list).mapM (readClass g))) := by
  unfold items Request.members
  cases Collection.items g list with
  | ok found => exact (Makes.mapM makes_readClass).map f
  | error fault => exact .throw (by simp)

theorem makes_restrictionOf (property : PropertyExpr) (predicate : String) (filler : Term) :
    Makes g terms (if predicate = Owl.someValuesFrom ∨ predicate = Owl.allValuesFrom then
        [.cls filler] else [])
      (restrictionOf (readClass g) property predicate filler) := by
  unfold restrictionOf
  by_cases hsome : predicate = Owl.someValuesFrom
  · rw [if_pos (.inl hsome), if_pos hsome]
    exact (makes_readClass filler).map _
  by_cases hall : predicate = Owl.allValuesFrom
  · rw [if_pos (.inr hall), if_neg hsome, if_pos hall]
    exact (makes_readClass filler).map _
  rw [if_neg (not_or.mpr ⟨hsome, hall⟩), if_neg hsome, if_neg hall]
  repeat' split
  all_goals exact .pure _

theorem makes_restriction (property : PropertyExpr) :
    Makes g terms (Request.fillers g node) (restriction g (readClass g) node property) := by
  simp only [restriction, Request.fillers]
  rcases fillerPredicates.flatMap _ with _ | ⟨⟨predicate, filler⟩, _ | ⟨e, rest⟩⟩
  · exact .throw (by simp)
  · exact makes_restrictionOf property predicate filler
  · exact .throw (by simp)

theorem makes_anonymous : Makes g terms ((Request.cls node).parts g)
    (anonymous g (readProperty g) (readClass g) node) := by
  unfold anonymous
  refine .single (fun list hlist => ?_) fun hintersection => ?_
  · simp only [Request.parts, hlist]
    exact makes_members list ClassExpr.intersectionOf
  refine .single (fun list hlist => ?_) fun hunion => ?_
  · simp only [Request.parts, hintersection, hlist]
    exact makes_members list ClassExpr.unionOf
  refine .single (fun inner hinner => ?_) fun hcomplement => ?_
  · simp only [Request.parts, hintersection, hunion, hinner]
    exact (makes_readClass inner).map ClassExpr.complementOf
  refine .single (fun list hlist => ?_) fun honeOf => ?_
  · simp only [Request.parts, hintersection, hunion, hcomplement, hlist]
    exact (makes_items list).map ClassExpr.oneOf
  refine .single (fun role hrole => ?_) fun honProperty => ?_
  · simp only [Request.parts, hintersection, hunion, hcomplement, honeOf, hrole]
    exact (makes_readProperty role).bind makes_restriction
  simp only [Request.parts, hintersection, hunion, hcomplement, honeOf, honProperty]
  split
  · exact .throw (by simp)
  · exact .pure _

theorem map_visiting {α β : Type} (f : α → β) (t : Term) (describe : Reading α) :
    f <$> visiting t describe = visiting t (f <$> describe) := by
  funext terms
  rw [map_apply, visiting, visiting, map_apply]
  split <;> rfl

theorem answer_cls (t : Term) :
    (Request.cls t).answer g = Sum.inl <$> classStep g (readProperty g) (readClass g) t :=
  congrArg (fun read => Sum.inl <$> read t) (readClass_eq g)

theorem answer_property (t : Term) :
    (Request.property t).answer g = Sum.inr <$> propertyStep g (readProperty g) t :=
  congrArg (fun read => Sum.inr <$> read t) (readProperty_eq g)

/-- A call for an anonymous term describes it with the term on the list. -/
theorem exists_describe {r : Request} (hr : r.IsAnonymous) :
    ∃ describe : Reading (ClassExpr ⊕ PropertyExpr), r.answer g = visiting r.term describe ∧
      ∀ terms, Makes g terms (r.parts g) describe := by
  cases r with
  | cls t =>
    refine ⟨_, (answer_cls t).trans ?_, fun terms => makes_anonymous.map Sum.inl⟩
    cases t with
    | iri s => exact absurd rfl (hr s)
    | literal _ | blank _ | var _ =>
      simp only [classStep]
      exact map_visiting ..
  | property t =>
    have hblank : t.isBlank = true := hr
    rw [answer_property, propertyStep, hblank, Bool.not_true, if_neg Bool.false_ne_true]
    refine ⟨_, map_visiting .., fun terms => .map ?_ _⟩
    refine .single (fun inner hinner => ?_) fun hnone => ?_
    · simp only [Request.parts, hinner]
      exact (makes_readProperty inner).map PropertyExpr.inverseOf
    · simp only [Request.parts, hnone]
      exact .pure _

theorem answer_of_not_isAnonymous {r : Request} (hr : ¬ r.IsAnonymous) :
    ∃ e, ∀ terms, r.answer g terms = (.ok e, terms) := by
  cases r with
  | cls t =>
    cases t with
    | iri s =>
      rw [answer_cls, classStep]
      repeat' split
      all_goals exact ⟨_, fun terms => rfl⟩
    | literal _ | blank _ | var _ => exact absurd (fun s h => by cases h) hr
  | property t =>
    have hblank : t.isBlank = false := Bool.not_eq_true _ |>.mp hr
    rw [answer_property, propertyStep, hblank]
    exact ⟨_, fun terms => rfl⟩

/-- A term with parts has a description in the graph. -/
theorem exists_describes_of_parts {r s : Request} (hs : s ∈ r.parts g) :
    ∃ predicate, Describes predicate ∧ objects g r.term predicate ≠ [] := by
  by_contra! hnone
  refine List.ne_nil_of_mem hs ?_
  cases r with
  | cls node =>
    have hnone : ∀ predicate, Describes (.iri predicate) → objects g node (.iri predicate) = [] :=
      fun _ => hnone _
    simp only [Request.parts, hnone Owl.intersectionOf (by decide), hnone Owl.unionOf (by decide),
      hnone Owl.complementOf (by decide), hnone Owl.oneOf (by decide),
      hnone Owl.onProperty (by decide)]
  | property node =>
    have hnone : objects g node (.iri Owl.inverseOf) = [] := hnone _ (by decide)
    simp only [Request.parts, hnone]

end Description

/-! ### Leading back -/

section LeadsBack
variable {g : Graph} {terms : List Term} {r : Request} {n : Term}

/-- **A call that leads back to a term being read finds nothing.** -/
theorem LeadsBack.not_ok (h : LeadsBack g terms r n) (e : ClassExpr ⊕ PropertyExpr) :
    (r.answer g terms).1 ≠ .ok e := by
  induction h generalizing e with
  | here hr hmem =>
    obtain ⟨describe, hanswer, _⟩ := exists_describe (g := g) hr
    rw [hanswer, visiting, if_pos hmem]
    intro hok
    cases hok
  | nested hr hnew hs _ ih =>
    obtain ⟨describe, hanswer, hmakes⟩ := exists_describe (g := g) hr
    rw [hanswer, visiting, if_neg hnew]
    intro hok
    obtain ⟨e', he'⟩ := (hmakes _).ok e hok _ hs
    exact ih e' he'

/-- **Only a call that leads back to a term being read fails as cyclic.** -/
theorem leadsBack_of_cyclic (h : (r.answer g terms).1 = .error (.cyclic n)) :
    LeadsBack g terms r n := by
  obtain ⟨nodes, hsame⟩ := exists_sameDescriptions_self g
  obtain ⟨left, hleft⟩ : ∃ left, unseen nodes terms = left := ⟨_, rfl⟩
  -- each nested call has one described node less to read
  induction left using Nat.strongRecOn generalizing terms r with
  | ind left ih =>
  by_cases hr : r.IsAnonymous
  · obtain ⟨describe, hanswer, hmakes⟩ := exists_describe (g := g) hr
    rw [hanswer, visiting] at h
    split at h
    · rename_i hmem
      cases h
      exact .here hr hmem
    · rename_i hnew
      obtain ⟨s, hs, hcyclic⟩ := (hmakes _).cyclic n h
      obtain ⟨predicate, hp, hne⟩ := exists_describes_of_parts hs
      have hlt := unseen_cons_lt (hsame.mem_nodes _ _ hp hne) hnew
      exact .nested hr hnew hs (ih _ (hleft ▸ hlt) hcyclic rfl)
  · obtain ⟨e, hanswer⟩ := answer_of_not_isAnonymous (g := g) hr
    rw [hanswer] at h
    cases h

end LeadsBack

/-! ### Calls one after the other -/

theorem answer_keeps (g : Graph) (r : Request) (terms : List Term) :
    (r.answer g terms).2 = terms := by
  cases r with
  | cls t => exact (congrArg Prod.snd (map_apply ..)).trans (makes_readClass t).keeps
  | property t => exact (congrArg Prod.snd (map_apply ..)).trans (makes_readProperty t).keeps

/-- Every call finds what it would find as the first one. -/
theorem answers_eq (g : Graph) (requests : List Request) (terms : List Term) :
    answers g requests terms = (requests.map fun r => (r.answer g terms).1, terms) := by
  induction requests with
  | nil => rfl
  | cons r rest ih =>
    have hkeeps := answer_keeps g r terms
    cases hanswer : r.answer g terms with
    | mk result next =>
    rw [hanswer] at hkeeps
    obtain rfl : next = terms := hkeeps
    simp only [answers, hanswer, ih, List.map_cons]

/-- So do the calls for the members of a combination. -/
theorem mapM_readClass_apply (g : Graph) (ts terms : List Term) :
    ts.mapM (readClass g) terms = (ts.mapM fun t => (readClass g t terms).1, terms) := by
  induction ts with
  | nil =>
    rw [List.mapM_nil, List.mapM_nil]
    rfl
  | cons t rest ih =>
    have hkeeps : (readClass g t terms).2 = terms := (makes_readClass t).keeps
    rw [List.mapM_cons, List.mapM_cons]
    cases hread : readClass g t terms with
    | mk result next =>
    rw [hread] at hkeeps
    obtain rfl : next = terms := hkeeps
    cases result with
    | error e =>
      rw [bind_of_error hread]
      rfl
    | ok cls =>
      rw [bind_of_ok hread]
      cases hrest : rest.mapM fun t => (readClass g t next).1 with
      | error e =>
        rw [hrest] at ih
        rw [bind_of_error ih]
        rfl
      | ok others =>
        rw [hrest] at ih
        rw [bind_of_ok ih]
        rfl

/-- **Every call comes to an end, cleans up and finds the cycles.** Collections are followed and
calls nested no further than the fuel goes: whatever would be done beyond it, the reader does the
same. Each call leaves the list of the terms being read as it was, so it finds what it would find
alone, and a term in two branches is read in both. A call finds nothing where its calls lead back
to a term being read, and fails as cyclic only there. -/
theorem call_laws (g : Graph) :
    (∀ more head, Collection.follow g ((triples g).length + 2 + more) [] head =
        Collection.items g head) ∧
      (∀ more stop, (propertyStep g)^[depth g + more] stop = readProperty g) ∧
      (∀ more stop, (classStep g (readProperty g))^[depth g + more] stop = readClass g) ∧
      (∀ requests terms,
        answers g requests terms = (requests.map fun r => (r.answer g terms).1, terms)) ∧
      (∀ (ts terms : List Term),
        ts.mapM (readClass g) terms = (ts.mapM fun t => (readClass g t terms).1, terms)) ∧
      ∀ terms r n, (LeadsBack g terms r n → ∀ e, (r.answer g terms).1 ≠ .ok e) ∧
        ((r.answer g terms).1 = .error (.cyclic n) → LeadsBack g terms r n) :=
  ⟨fun more head => Collection.follow_eq_items g head more, readProperty_eq_iterate g,
    readClass_eq_iterate g, answers_eq g, mapM_readClass_apply g,
    fun _ _ _ => ⟨LeadsBack.not_ok, leadsBack_of_cyclic⟩⟩

/-- Twice the same complement in an intersection, and a complement of itself. -/
def complements : Graph := .ofList
  [⟨.blank "a", .iri Owl.intersectionOf, .blank "l"⟩,
    ⟨.blank "l", .iri Rdf.first, .blank "c"⟩, ⟨.blank "l", .iri Rdf.rest, .blank "m"⟩,
    ⟨.blank "m", .iri Rdf.first, .blank "c"⟩, ⟨.blank "m", .iri Rdf.rest, .iri Rdf.nil⟩,
    ⟨.blank "c", .iri Owl.complementOf, .iri "A"⟩,
    ⟨.blank "b", .iri Owl.complementOf, .blank "b"⟩]

theorem call_laws_of_complements :
    ((∀ n, ¬ LeadsBack complements [] (.cls (.blank "a")) n) ∧
      LeadsBack complements [] (.cls (.blank "b")) (.blank "b")) ∧
      ∀ e, ((Request.cls (.blank "b")).answer complements []).1 ≠ .ok e := by
  obtain ⟨_, _, _, _, _, hlaws⟩ := call_laws complements
  have hfound : ((Request.cls (.blank "a")).answer complements []).1 =
      .ok (.inl (.intersectionOf [.complementOf (.named (.iri "A")),
        .complementOf (.named (.iri "A"))])) := by
    rfl
  have hcyclic : ((Request.cls (.blank "b")).answer complements []).1 =
      .error (.cyclic (.blank "b")) := by
    rfl
  have hback := (hlaws [] (.cls (.blank "b")) (.blank "b")).2 hcyclic
  exact ⟨⟨fun n h => (hlaws [] (.cls (.blank "a")) n).1 h _ hfound, hback⟩,
    (hlaws [] (.cls (.blank "b")) (.blank "b")).1 hback⟩

end HornReasoner.Ontology
