import HornReasoner.Proofs.Network.Arrival

/-! What one activation does.

Joining by the values of the shared variables finds every match that joins and no other,
so what an activation emits is what it adds to what left its node. A firing adds facts
behind the known ones and a blank node table that still answers as before. -/
namespace HornReasoner

/-! ### Memories -/

/-- The memories hold what came to the node, each item under its key. -/
structure BetaNode.Holds (node : BetaNode) (lefts : List Instantiation) (rights : List Match) :
    Prop where
  left : Buckets.Filed (fun i : Instantiation => i.binding.keyFor node.joinVars) node.leftMemory
    (node.keeps lefts)
  right : Buckets.Filed (fun m : Match => m.binding.keyFor node.joinVars) node.rightMemory rights

namespace BetaNode

theorem Holds.nil {node : BetaNode} (hleft : node.leftMemory = []) (hright : node.rightMemory = []) :
    node.Holds [] [] where
  left := by
    have hkeeps : node.keeps [] = [] := by
      unfold keeps
      split <;> rfl
    rw [hleft, hkeeps]
    exact .nil _
  right := by
    rw [hright]
    exact .nil _

/-- Items under another key join nothing. -/
theorem filterMap_join_filter {vars : List Variable} {i : Instantiation} {rights : List Match}
    {key : List Term} (hkey : i.binding.keyFor vars = some key)
    (hkeyed : ∀ m ∈ rights, (m.binding.keyFor vars).isSome) :
    (rights.filter fun m => m.binding.keyFor vars = some key).filterMap i.join =
      rights.filterMap i.join := by
  rw [List.filterMap_filter]
  refine List.filterMap_congr fun m hm => ?_
  split
  · rfl
  · rename_i hne
    obtain ⟨other, hother⟩ := Option.isSome_iff_exists.mp (hkeyed m hm)
    rw [Instantiation.join, Binding.merge_eq_none_of_keyFor_ne hkey hother, Option.map_none]
    rintro rfl
    exact hne (decide_eq_true hother)

theorem filterMap_join_filter_left {vars : List Variable} {m : Match} {lefts : List Instantiation}
    {key : List Term} (hkey : m.binding.keyFor vars = some key)
    (hkeyed : ∀ i ∈ lefts, (i.binding.keyFor vars).isSome) :
    ((lefts.filter fun i => i.binding.keyFor vars = some key).filterMap fun i => i.join m) =
      lefts.filterMap fun i => i.join m := by
  rw [List.filterMap_filter]
  refine List.filterMap_congr fun i hi => ?_
  split
  · rfl
  · rename_i hne
    obtain ⟨other, hother⟩ := Option.isSome_iff_exists.mp (hkeyed i hi)
    rw [Instantiation.join, Binding.merge_eq_none_of_keyFor_ne hother hkey, Option.map_none]
    rintro rfl
    exact hne (decide_eq_true hother)

/-- The memories file these instantiations and these matches, each under its key. -/
structure Files (node : BetaNode) (lefts : List Instantiation) (rights : List Match) : Prop where
  left : Buckets.Filed (fun i : Instantiation => i.binding.keyFor node.joinVars) node.leftMemory lefts
  right : Buckets.Filed (fun m : Match => m.binding.keyFor node.joinVars) node.rightMemory rights

theorem Files.insertLeft {node : BetaNode} {lefts : List Instantiation} {rights : List Match}
    (h : node.Files lefts rights) {i : Instantiation}
    (hkey : (i.binding.keyFor node.joinVars).isSome) :
    (node.insertLeft i).2 = rights.filterMap i.join ∧
      (node.insertLeft i).1.Files (lefts ++ [i]) rights := by
  obtain ⟨key, hkey⟩ := Option.isSome_iff_exists.mp hkey
  unfold BetaNode.insertLeft
  rw [hkey]
  refine ⟨?_, h.left.add hkey, h.right⟩
  show (node.rightMemory.find key).filterMap i.join = _
  rw [h.right.found, filterMap_join_filter hkey h.right.keyed]

theorem Files.insertRight {node : BetaNode} {lefts : List Instantiation} {rights : List Match}
    (h : node.Files lefts rights) {m : Match} (hkey : (m.binding.keyFor node.joinVars).isSome) :
    (node.insertRight m).2 = (lefts.filterMap fun i => i.join m) ∧
      (node.insertRight m).1.Files lefts (rights ++ [m]) := by
  obtain ⟨key, hkey⟩ := Option.isSome_iff_exists.mp hkey
  unfold BetaNode.insertRight
  rw [hkey]
  refine ⟨?_, h.left, h.right.add hkey⟩
  show ((node.leftMemory.find key).filterMap fun i => i.join m) = _
  rw [h.left.found, filterMap_join_filter_left hkey h.left.keyed]

theorem insertLeft_spec {node : BetaNode} {lefts : List Instantiation} {rights : List Match}
    (h : node.Holds lefts rights) {a : AlphaId} (hright : node.right = .alpha a) {i : Instantiation}
    (hkey : (i.binding.keyFor node.joinVars).isSome) :
    (node.insertLeft i).2 = rights.filterMap i.join ∧
      (node.insertLeft i).1.Holds (lefts ++ [i]) rights := by
  have hkeeps : ∀ other : BetaNode, other.right = .alpha a → ∀ ls, other.keeps ls = ls := by
    intro other hother ls
    rw [keeps, hother]
  have hfiles : node.Files lefts rights := ⟨hkeeps node hright lefts ▸ h.left, h.right⟩
  obtain ⟨hout, hadded⟩ := hfiles.insertLeft hkey
  have hsame : (node.insertLeft i).1.right = .alpha a :=
    (congrArg BetaNode.right (Network.clear_insertLeft node i) :).trans hright
  refine ⟨hout, ?_, hadded.right⟩
  rw [hkeeps _ hsame]
  exact hadded.left

theorem insertRight_spec {node : BetaNode} {lefts : List Instantiation} {rights : List Match}
    (h : node.Holds lefts rights) {m : Match} (hkey : (m.binding.keyFor node.joinVars).isSome) :
    (node.insertRight m).2 = node.fromRight lefts m ∧
      (node.insertRight m).1.Holds lefts (rights ++ [m]) := by
  have hfiles : node.Files (node.keeps lefts) rights := ⟨h.left, h.right⟩
  obtain ⟨hout, hadded⟩ := hfiles.insertRight hkey
  have hsame : (node.insertRight m).1.right = node.right :=
    (congrArg BetaNode.right (Network.clear_insertRight node m) :)
  refine ⟨hout, ?_, hadded.right⟩
  rw [keeps, hsame]
  exact hadded.left

end BetaNode

namespace Network

/-- A node activated on the left files what came and emits what that adds. -/
theorem leftActivate_spec {net : Network} {id : BetaId} {node : BetaNode}
    (hnode : net.betas[id.index]? = some node) {lefts : List Instantiation} {rights : List Match}
    (h : node.Holds lefts rights) {i : Instantiation}
    (hkey : (i.binding.keyFor node.joinVars).isSome) :
    ∃ node' : BetaNode, node'.clear = node.clear ∧ node'.Holds (lefts ++ [i]) rights ∧
      net.leftActivate id i =
        (net.setBeta id node').emit node' (node.fromLeft net.builtins rights i) := by
  have hcounted : ({ node with activations := node.activations + 1 } : BetaNode).Holds lefts rights :=
    ⟨h.left, h.right⟩
  have hkept : (∀ ls, node.keeps ls = []) →
      ({ node with activations := node.activations + 1 } : BetaNode).Holds (lefts ++ [i]) rights := by
    intro hkeeps
    refine ⟨?_, h.right⟩
    have hleft := h.left
    rw [hkeeps lefts, ← hkeeps (lefts ++ [i])] at hleft
    exact hleft
  unfold leftActivate
  rw [hnode]
  dsimp only
  split
  · rename_i hright
    refine ⟨{ node with activations := node.activations + 1 }, rfl, hkept fun ls => ?_, ?_⟩
    · rw [BetaNode.keeps, hright]
    · rw [BetaNode.fromLeft, hright]
  · rename_i hright
    obtain ⟨hout, hholds⟩ := BetaNode.insertLeft_spec hcounted hright hkey
    have hfrom : node.fromLeft net.builtins rights i = rights.filterMap i.join := by
      rw [BetaNode.fromLeft, hright]
    refine ⟨({ node with activations := node.activations + 1 }.insertLeft i).1,
      clear_insertLeft _ i, hholds, ?_⟩
    rw [hout, hfrom]
  · rename_i hright
    refine ⟨{ node with activations := node.activations + 1 }, rfl, hkept fun ls => ?_, ?_⟩
    · rw [BetaNode.keeps, hright]
    · rw [BetaNode.fromLeft, hright]

/-- A node activated on the right files what came and emits what that adds. -/
theorem rightActivate_spec {net : Network} {id : BetaId} {node : BetaNode}
    (hnode : net.betas[id.index]? = some node) {lefts : List Instantiation} {rights : List Match}
    (h : node.Holds lefts rights) {m : Match} (hkey : (m.binding.keyFor node.joinVars).isSome) :
    ∃ node' : BetaNode, node'.clear = node.clear ∧ node'.Holds lefts (rights ++ [m]) ∧
      net.rightActivate id m = (net.setBeta id node').emit node' (node.fromRight lefts m) := by
  have hcounted : ({ node with activations := node.activations + 1 } : BetaNode).Holds lefts rights :=
    ⟨h.left, h.right⟩
  obtain ⟨hout, hholds⟩ := BetaNode.insertRight_spec hcounted hkey
  refine ⟨({ node with activations := node.activations + 1 }.insertRight m).1,
    clear_insertRight _ m, hholds, ?_⟩
  unfold rightActivate
  rw [hnode]
  dsimp only
  rw [hout]
  rfl

/-! ### Assertions -/

theorem mem_insert (g : Graph) (t u : Triple) :
    u ∈ (g.insert t).toList ↔ u ∈ g.toList ∨ u = t := by
  rw [Graph.toList_insert]
  split
  · rename_i ht
    exact ⟨.inl, fun h => h.elim id fun hu => hu ▸ ht⟩
  · rw [List.mem_append, List.mem_singleton]

/-- `net'` is `net` with the new triples `news` inferred and to be tested. -/
structure Asserted (net net' : Network) (news : List Triple) : Prop where
  memory : net'.workingMemory.toList = net.workingMemory.toList ++ news
  inferred : ∀ t, t ∈ net'.inferred.toList ↔ t ∈ net.inferred.toList ∨ t ∈ news
  agenda : net'.agenda = (news.map Activation.fact).reverse ++ net.agenda
  betas : net'.betas = net.betas
  skolem : net'.skolem = net.skolem

theorem Asserted.rfl (net : Network) : Asserted net net [] where
  memory := (List.append_nil _).symm
  inferred := by simp
  agenda := by simp
  betas := by rfl
  skolem := by rfl

theorem Asserted.trans {net net' net'' : Network} {news more : List Triple}
    (h : Asserted net net' news) (h' : Asserted net' net'' more) :
    Asserted net net'' (news ++ more) where
  memory := by rw [h'.memory, h.memory, List.append_assoc]
  inferred := by
    intro t
    rw [h'.inferred, h.inferred, List.mem_append, or_assoc]
  agenda := by
    rw [h'.agenda, h.agenda, List.map_append, List.reverse_append, List.append_assoc]
  betas := h'.betas.trans h.betas
  skolem := h'.skolem.trans h.skolem

/-- A derived triple is known afterwards; what is new is that triple at most. -/
theorem assertDerived_spec (net : Network) (j : Justification) (t : Triple) :
    ∃ news, Asserted net (net.assertDerived j t) news ∧ (∀ u ∈ news, u = t) ∧
      t ∈ (net.assertDerived j t).workingMemory.toList := by
  unfold assertDerived
  by_cases hknown : net.workingMemory.contains t = true
  · have hmem : t ∈ net.workingMemory.toList := Graph.contains_iff.mp hknown
    rw [if_pos hknown]
    refine ⟨[], ?_, by simp, ?_⟩
    · split <;> exact ⟨(List.append_nil _).symm, by simp, by simp, by rfl, by rfl⟩
    · split <;> exact hmem
  · have hmem : t ∉ net.workingMemory.toList := fun h => hknown (Graph.contains_iff.mpr h)
    have hadded : (net.workingMemory.insert t).toList = net.workingMemory.toList ++ [t] := by
      rw [Graph.toList_insert, if_neg hmem]
    rw [if_neg hknown]
    refine ⟨[t], ⟨hadded, fun u => ?_, by simp, by rfl, by rfl⟩, by simp, ?_⟩
    · rw [mem_insert, List.mem_singleton]
    · rw [hadded]
      simp

/-- All instances of the heads are known afterwards, and nothing else is new. -/
theorem assertHeads_spec (b : Binding) (j : Justification) (head : List Triple) (net : Network) :
    ∃ news, Asserted net (head.foldl (assertHead b j) net) news ∧
      (∀ t ∈ news, ∃ atom ∈ head, atom.substitute b = .ok t) ∧
      ∀ atom ∈ head, ∀ t, atom.substitute b = .ok t →
        t ∈ (head.foldl (assertHead b j) net).workingMemory.toList := by
  induction head generalizing net with
  | nil => exact ⟨[], .rfl net, by simp, by simp⟩
  | cons pattern rest ih =>
    have hone : ∃ news, Asserted net (net.assertHead b j pattern) news ∧
        (∀ t ∈ news, pattern.substitute b = .ok t) ∧
        ∀ t, pattern.substitute b = .ok t →
          t ∈ (net.assertHead b j pattern).workingMemory.toList := by
      unfold assertHead
      split
      · rename_i t ht
        obtain ⟨news, hasserted, hnews, hmem⟩ := net.assertDerived_spec j t
        refine ⟨news, hasserted, fun u hu => ?_, fun u hu => ?_⟩
        · rw [hnews u hu]
          exact ht
        · rw [ht] at hu
          cases hu
          exact hmem
      · rename_i hunbound
        refine ⟨[], ⟨(List.append_nil _).symm, by simp, by simp, by rfl, by rfl⟩, by simp,
          fun t ht => ?_⟩
        rw [hunbound] at ht
        cases ht
    obtain ⟨first, hfirst, hnew, hknown⟩ := hone
    obtain ⟨others, hothers, hnews, hall⟩ := ih (net.assertHead b j pattern)
    rw [List.foldl_cons]
    refine ⟨first ++ others, hfirst.trans hothers, fun t ht => ?_, fun atom hatom t ht => ?_⟩
    · rcases List.mem_append.mp ht with ht | ht
      · exact ⟨pattern, List.mem_cons_self .., hnew t ht⟩
      · obtain ⟨atom, hatom, ht⟩ := hnews t ht
        exact ⟨atom, List.mem_cons_of_mem _ hatom, ht⟩
    · rcases List.mem_cons.mp hatom with rfl | hatom
      · rw [hothers.memory]
        exact List.mem_append_left _ (hknown t ht)
      · exact hall atom hatom t ht

/-! ### Firings -/

/-- The blank nodes of a production on a set of facts; without existential variables none
are needed. -/
def witnesses (net : Network) (id : ProductionId) (rule : HornRule) (support : List Triple) :
    Option (List (Variable × Term)) :=
  if rule.existentials.isEmpty then some []
  else net.skolem.minted.lookup (id, Sorted.ofList support)

theorem map_fst_mint (stem : String) (used : List Term) (counter : Nat) (vs : List Variable) :
    (SkolemTable.mint stem used counter vs).1.map Prod.fst = vs := by
  induction vs generalizing counter with
  | nil => rfl
  | cons v rest ih =>
    rw [SkolemTable.mint]
    exact congrArg (v :: ·) (ih _)

/-- The table keeps its entries, and an entry it adds is the one it answers with. -/
theorem resolve_spec (s : SkolemTable) (id : ProductionId) (support : List Triple)
    (vars : List Variable) (used : List Term) :
    ∃ s' fresh, s.resolve id support vars used = (s', fresh) ∧ s.minted <+: s'.minted ∧
      s'.minted.lookup (id, Sorted.ofList support) = some fresh ∧
      ∀ e ∈ s'.minted, e ∈ s.minted ∨
        (e.1 = (id, Sorted.ofList support) ∧ e.2.map Prod.fst = vars) := by
  unfold SkolemTable.resolve
  dsimp only
  cases hfound : s.minted.lookup (id, Sorted.ofList support) with
  | some fresh => exact ⟨s, fresh, rfl, List.prefix_rfl, hfound, fun e he => .inl he⟩
  | none =>
    refine ⟨_, _, rfl, List.prefix_append _ _, ?_, fun e he => ?_⟩
    · rw [List.lookup_append, hfound, Option.none_or]
      simp
    · rcases List.mem_append.mp he with he | he
      · exact .inl he
      · rw [List.mem_singleton.mp he]
        exact .inr ⟨rfl, map_fst_mint ..⟩

/-- The table after a firing and the values of the existential variables. -/
def minting (net : Network) (id : ProductionId) (p : Production) (i : Instantiation) :
    SkolemTable × List (Variable × Term) :=
  if p.rule.existentials.isEmpty then (net.skolem, [])
  else net.skolem.resolve id i.support p.rule.existentials
    (net.workingMemory.toList.flatMap Triple.terms)

/-- The network when a firing is counted and has its blank nodes. -/
def ready (net : Network) (id : ProductionId) (p : Production) (i : Instantiation) : Network :=
  { net with
    productions := net.productions.set id.index { p with fired := p.fired + 1 }
    firings := net.firings + 1
    skolem := (net.minting id p i).1 }

/-- A firing is counted, finds its blank nodes and asserts the head. -/
theorem fire_eq {net : Network} {id : ProductionId} {p : Production}
    (hp : net.production? id = some p) (i : Instantiation) :
    net.fire id i = p.rule.head.foldl (assertHead (i.binding.insertAllIfNew (net.minting id p i).2)
      ⟨id, p.rule.label, i.support⟩) (net.ready id p i) := by
  unfold fire
  rw [hp]
  rfl

theorem minting_spec (net : Network) (id : ProductionId) (p : Production) (i : Instantiation) :
    net.skolem.minted <+: (net.minting id p i).1.minted ∧
      (∀ e ∈ (net.minting id p i).1.minted, e ∈ net.skolem.minted ∨
        (e.1 = (id, Sorted.ofList i.support) ∧ e.2.map Prod.fst = p.rule.existentials)) ∧
      ∀ net' : Network, net'.skolem = (net.minting id p i).1 →
        net'.witnesses id p.rule i.support = some (net.minting id p i).2 := by
  unfold minting
  split
  · rename_i hempty
    exact ⟨List.prefix_rfl, fun e he => .inl he, fun net' _ => by rw [witnesses, if_pos hempty]⟩
  · rename_i hexistentials
    obtain ⟨s, fresh, hresolve, hkept, hfound, hentries⟩ := resolve_spec net.skolem id i.support
      p.rule.existentials (net.workingMemory.toList.flatMap Triple.terms)
    rw [hresolve]
    refine ⟨hkept, hentries, fun net' hskolem => ?_⟩
    rw [witnesses, if_neg hexistentials, hskolem]
    exact hfound

theorem skeleton_ready {net : Network} {id : ProductionId} {p : Production}
    (hp : net.production? id = some p) (i : Instantiation) :
    (net.ready id p i).skeleton = net.skeleton := by
  have hproductions : (net.productions.set id.index { p with fired := p.fired + 1 }).map
      (fun p => { p with fired := 0 }) = net.productions.map fun p => { p with fired := 0 } :=
    map_set_of_eq hp rfl
  have hskolem : (net.minting id p i).1.clear = net.skolem.clear := by
    unfold minting
    split
    · rfl
    · exact clear_resolve ..
  simp only [skeleton, ready, hproductions, hskolem]

/-- What a firing does: the blank nodes are in the table, the instances of the head are
known, and whatever is new is one of them. -/
theorem fire_spec {net : Network} {id : ProductionId} {p : Production}
    (hp : net.production? id = some p) (i : Instantiation) :
    ∃ s fresh news, Asserted { net with skolem := s } (net.fire id i) news ∧
      net.skolem.minted <+: s.minted ∧
      (∀ e ∈ s.minted, e ∈ net.skolem.minted ∨
        (e.1 = (id, Sorted.ofList i.support) ∧ e.2.map Prod.fst = p.rule.existentials)) ∧
      (net.fire id i).witnesses id p.rule i.support = some fresh ∧
      (∀ t ∈ news, ∃ atom ∈ p.rule.head,
        atom.substitute (i.binding.insertAllIfNew fresh) = .ok t) ∧
      ∀ atom ∈ p.rule.head, ∀ t, atom.substitute (i.binding.insertAllIfNew fresh) = .ok t →
        t ∈ (net.fire id i).workingMemory.toList := by
  obtain ⟨hkept, hentries, hwitnesses⟩ := minting_spec net id p i
  rw [fire_eq hp]
  obtain ⟨news, hasserted, hnews, hall⟩ := assertHeads_spec
    (i.binding.insertAllIfNew (net.minting id p i).2) ⟨id, p.rule.label, i.support⟩ p.rule.head
    (net.ready id p i)
  exact ⟨_, _, news, ⟨hasserted.memory, hasserted.inferred, hasserted.agenda, hasserted.betas,
    hasserted.skolem⟩, hkept, hentries, hwitnesses _ hasserted.skolem, hnews, hall⟩

end Network

end HornReasoner
