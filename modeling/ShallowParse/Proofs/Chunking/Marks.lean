/-
This file tells the phrases of a tree apart by the rules that built them. Labels do not
tell this, since several rules may have the same one, but the trace does: when it is
replayed, each phrase is marked with the rule of the report that built it. Without the
marks this is the replay of the trace. With them the phrases of some rules can be
dissolved, which puts the children of each in its place.
-/

import ShallowParse.Proofs.Chunking.Replay
import ShallowParse.Proofs.Tree.Places

namespace ShallowParse

/-- A node all of whose phrases are marked with the rule that built them. -/
inductive MarkedNode where
  | leaf (token : Token)
  | phrase (rule : Nat) (label : String) (children : List MarkedNode)

namespace MarkedNode

/-! ### Marks -/

mutual

/-- A node without its marks. -/
def erase : MarkedNode → Node
  | leaf token => .leaf token
  | phrase _ label children => .phrase label (eraseAll children)

def eraseAll : List MarkedNode → List Node
  | [] => []
  | node :: nodes => erase node :: eraseAll nodes

end

mutual

/-- The marks of a node. -/
def marks : MarkedNode → List Nat
  | leaf _ => []
  | phrase rule _ children => rule :: marksOfAll children

def marksOfAll : List MarkedNode → List Nat
  | [] => []
  | node :: nodes => marks node ++ marksOfAll nodes

end

mutual

/-- A node and all nodes below it, each before those below it. -/
def withDescendants : MarkedNode → List MarkedNode
  | leaf token => [leaf token]
  | phrase rule label children => phrase rule label children :: descendantsOfAll children

def descendantsOfAll : List MarkedNode → List MarkedNode
  | [] => []
  | node :: nodes => withDescendants node ++ descendantsOfAll nodes

end

mutual

/-- The nodes that are left of a node when all phrases are dissolved but those of the first rules,
of which there are so many. -/
def dissolve (count : Nat) : MarkedNode → List MarkedNode
  | leaf token => [leaf token]
  | phrase rule label children =>
    if rule < count then [phrase rule label (dissolveAll count children)]
    else dissolveAll count children

def dissolveAll (count : Nat) : List MarkedNode → List MarkedNode
  | [] => []
  | node :: nodes => dissolve count node ++ dissolveAll count nodes

end

theorem eraseAll_eq_map (nodes : List MarkedNode) : eraseAll nodes = nodes.map erase :=
  eq_map_of_cons rfl (fun _ _ => rfl) nodes

theorem eraseAll_append (before after : List MarkedNode) :
    eraseAll (before ++ after) = eraseAll before ++ eraseAll after := by
  simp only [eraseAll_eq_map, List.map_append]

theorem eraseAll_map_leaf (tokens : List Token) :
    eraseAll (tokens.map leaf) = tokens.map .leaf := by
  rw [eraseAll_eq_map, List.map_map]
  rfl

theorem marksOfAll_eq_flatMap (nodes : List MarkedNode) : marksOfAll nodes = nodes.flatMap marks :=
  eq_flatMap_of_cons rfl (fun _ _ => rfl) nodes

theorem marksOfAll_append (before after : List MarkedNode) :
    marksOfAll (before ++ after) = marksOfAll before ++ marksOfAll after := by
  simp only [marksOfAll_eq_flatMap, List.flatMap_append]

theorem marksOfAll_map_leaf (tokens : List Token) : marksOfAll (tokens.map leaf) = [] := by
  rw [marksOfAll_eq_flatMap, List.flatMap_map]
  exact List.flatMap_eq_nil_iff.mpr fun _ _ => rfl

theorem dissolveAll_append (count : Nat) (before after : List MarkedNode) :
    dissolveAll count (before ++ after) = dissolveAll count before ++ dissolveAll count after := by
  have eq_flatMap (nodes : List MarkedNode) :
      dissolveAll count nodes = nodes.flatMap (dissolve count) :=
    eq_flatMap_of_cons rfl (fun _ _ => rfl) nodes
  simp only [eq_flatMap, List.flatMap_append]

mutual

theorem dissolve_of_marks {count : Nat} : (node : MarkedNode) →
    (∀ mark ∈ node.marks, mark < count) → node.dissolve count = [node]
  | leaf _, _ => rfl
  | phrase rule label children, marked => by
    obtain ⟨isFirst, ofChildren⟩ := List.forall_mem_cons.mp marked
    rw [dissolve, if_pos isFirst, dissolveAll_of_marks children ofChildren]

/-- Where all phrases are of the first rules there is nothing to dissolve. -/
theorem dissolveAll_of_marks {count : Nat} : (nodes : List MarkedNode) →
    (∀ mark ∈ marksOfAll nodes, mark < count) → dissolveAll count nodes = nodes
  | [], _ => rfl
  | node :: nodes, marked => by
    obtain ⟨ofFirst, ofOthers⟩ := List.forall_mem_append.mp marked
    rw [dissolveAll, dissolve_of_marks node ofFirst, dissolveAll_of_marks nodes ofOthers,
      List.singleton_append]

end

/-! ### Nodes and their children -/

theorem descendantsOfAll_eq_flatMap (nodes : List MarkedNode) :
    descendantsOfAll nodes = nodes.flatMap withDescendants :=
  eq_flatMap_of_cons rfl (fun _ _ => rfl) nodes

theorem descendantsOfAll_append (before after : List MarkedNode) :
    descendantsOfAll (before ++ after) = descendantsOfAll before ++ descendantsOfAll after := by
  simp only [descendantsOfAll_eq_flatMap, List.flatMap_append]

theorem descendantsOfAll_map_leaf (tokens : List Token) :
    descendantsOfAll (tokens.map leaf) = tokens.map leaf := by
  rw [descendantsOfAll_eq_flatMap, List.flatMap_map]
  exact List.map_eq_flatMap.symm

theorem mem_descendantsOfAll {nodes : List MarkedNode} {node : MarkedNode}
    (member : node ∈ nodes) : node ∈ descendantsOfAll nodes := by
  rw [descendantsOfAll_eq_flatMap, List.mem_flatMap]
  refine ⟨node, member, ?_⟩
  cases node <;> exact List.mem_cons_self

mutual

theorem child_mem_withDescendants {rule : Nat} {label : String} {children : List MarkedNode}
    {child : MarkedNode} (isChild : child ∈ children) : (node : MarkedNode) →
    phrase rule label children ∈ node.withDescendants → child ∈ node.withDescendants
  | leaf _, member => nomatch List.mem_singleton.mp member
  | phrase _ _ others, member => by
    refine List.mem_cons_of_mem _ ?_
    rcases List.mem_cons.mp member with same | below
    · obtain ⟨-, -, rfl⟩ := phrase.inj same
      exact mem_descendantsOfAll isChild
    · exact child_mem_descendantsOfAll isChild others below

/-- The children of a node below a row are below the row. -/
theorem child_mem_descendantsOfAll {rule : Nat} {label : String} {children : List MarkedNode}
    {child : MarkedNode} (isChild : child ∈ children) : (nodes : List MarkedNode) →
    phrase rule label children ∈ descendantsOfAll nodes → child ∈ descendantsOfAll nodes
  | [], member => nomatch member
  | node :: nodes, member => List.mem_append.mpr ((List.mem_append.mp member).imp
    (child_mem_withDescendants isChild node) (child_mem_descendantsOfAll isChild nodes))

end

/-! ### Replays -/

/-- Parts a row of nodes after so many words, unless a node holds words of both parts. -/
def partAfter? : Nat → List MarkedNode → Option (List MarkedNode × List MarkedNode)
  | 0, nodes => some ([], nodes)
  | _ + 1, [] => none
  | words + 1, node :: nodes =>
    if node.erase.leafCount ≤ words + 1 then
      (partAfter? (words + 1 - node.erase.leafCount) nodes).map fun (before, after) =>
        (node :: before, after)
    else none

/-- Puts a phrase with the mark of its rule in place of the nodes that cover exactly the words of an
application. -/
def applyOne? (nodes : List MarkedNode) (application : Application) : Option (List MarkedNode) := do
  let (before, later) ← partAfter? application.start nodes
  let (children, after) ← partAfter? (application.stop - application.start) later
  return before ++ phrase application.rule application.label children :: after

/-- Applies one application after the other. -/
def applyAll? (nodes : List MarkedNode) (applications : List Application) :
    Option (List MarkedNode) :=
  applications.foldlM applyOne? nodes

theorem applyAll?_append (nodes : List MarkedNode) (first second : List Application) :
    applyAll? nodes (first ++ second) = (applyAll? nodes first).bind (applyAll? · second) :=
  List.foldlM_append

/-! ### One application -/

theorem eq_append_of_partAfter? {words : Nat} {nodes before after : List MarkedNode}
    (parted : partAfter? words nodes = some (before, after)) : nodes = before ++ after := by
  induction words, nodes using partAfter?.induct generalizing before with
  | case1 nodes =>
    rw [partAfter?] at parted
    cases parted
    rfl
  | case2 words =>
    cases parted
  | case3 words node nodes fits inductionHypothesis =>
    rw [partAfter?, if_pos fits] at parted
    obtain ⟨⟨first, rest⟩, partedRest, same⟩ := Option.map_eq_some_iff.mp parted
    cases same
    rw [inductionHypothesis partedRest, List.cons_append]
  | case4 words node nodes tooLarge =>
    rw [partAfter?, if_neg tooLarge] at parted
    cases parted

/-- An application only puts a phrase around some nodes of the row. -/
theorem exists_of_applyOne? {nodes left : List MarkedNode} {application : Application}
    (applied : applyOne? nodes application = some left) :
    ∃ before children after, nodes = before ++ children ++ after ∧
      left = before ++ phrase application.rule application.label children :: after := by
  rw [applyOne?] at applied
  obtain ⟨⟨before, later⟩, partedFirst, applied⟩ := Option.bind_eq_some_iff.mp applied
  obtain ⟨⟨children, after⟩, partedLater, applied⟩ := Option.bind_eq_some_iff.mp applied
  refine ⟨before, children, after, ?_, (Option.some.inj applied).symm⟩
  rw [eq_append_of_partAfter? partedFirst, eq_append_of_partAfter? partedLater, List.append_assoc]

/-- An application of a later rule is undone by dissolving. -/
theorem dissolveAll_of_applyOne? {count : Nat} {nodes left : List MarkedNode}
    {application : Application} (isLater : count ≤ application.rule)
    (applied : applyOne? nodes application = some left) :
    dissolveAll count left = dissolveAll count nodes := by
  obtain ⟨before, children, after, rfl, rfl⟩ := exists_of_applyOne? applied
  rw [List.append_assoc, dissolveAll_append, dissolveAll_append, dissolveAll_append, dissolveAll,
    dissolve, if_neg (Nat.not_lt_of_le isLater)]

theorem marksOfAll_of_applyOne? {nodes left : List MarkedNode} {application : Application}
    (applied : applyOne? nodes application = some left) :
    marksOfAll left ⊆ application.rule :: marksOfAll nodes := by
  obtain ⟨before, children, after, rfl, rfl⟩ := exists_of_applyOne? applied
  intro mark member
  simp only [marksOfAll_append, marksOfAll, marks, List.mem_append, List.mem_cons] at member ⊢
  tauto

/-- Whether a node is a phrase that an application puts around some nodes. -/
def IsOf (application : Application) (node : MarkedNode) : Prop :=
  ∃ children, node = phrase application.rule application.label children

/-- A node after an application was there before, or is the new phrase. -/
theorem mem_of_applyOne? {nodes left : List MarkedNode} {application : Application}
    (applied : applyOne? nodes application = some left) {node : MarkedNode}
    (member : node ∈ descendantsOfAll left) :
    node ∈ descendantsOfAll nodes ∨ IsOf application node := by
  obtain ⟨before, children, after, rfl, rfl⟩ := exists_of_applyOne? applied
  simp only [descendantsOfAll_append, descendantsOfAll, withDescendants, List.mem_append,
    List.mem_cons] at member ⊢
  rcases member with inBefore | (isNew | inChildren) | inAfter
  · exact Or.inl (Or.inl (Or.inl inBefore))
  · exact Or.inr ⟨children, isNew⟩
  · exact Or.inl (Or.inl (Or.inr inChildren))
  · exact Or.inl (Or.inr inAfter)

/-- An application leaves all nodes at their places. -/
theorem placedOfAll_of_applyOne? {nodes left : List MarkedNode} {application : Application}
    (applied : applyOne? nodes application = some left) (offset : Nat) :
    Node.placedOfAll offset (eraseAll nodes) ⊆ Node.placedOfAll offset (eraseAll left) := by
  obtain ⟨before, children, after, rfl, rfl⟩ := exists_of_applyOne? applied
  rw [eraseAll_append, eraseAll_append, eraseAll_append]
  exact Node.placedOfAll_subset_phrase offset application.label _ _ _

/-! ### All applications -/

/-- What can be chained holds between a row and what applications make of it when it holds of each
application. -/
theorem relates_of_applyAll? (Related : List MarkedNode → List MarkedNode → Prop)
    (refl : ∀ nodes, Related nodes nodes)
    (trans : ∀ {first second third}, Related first second → Related second third →
      Related first third)
    {applications : List Application}
    (ofOne : ∀ application ∈ applications, ∀ nodes next,
      applyOne? nodes application = some next → Related nodes next)
    {nodes left : List MarkedNode} (applied : applyAll? nodes applications = some left) :
    Related nodes left := by
  induction applications generalizing nodes with
  | nil =>
    cases applied
    exact refl _
  | cons application others inductionHypothesis =>
    obtain ⟨ofFirst, ofOthers⟩ := List.forall_mem_cons.mp ofOne
    obtain ⟨next, isNext, applied⟩ := Option.bind_eq_some_iff.mp applied
    exact trans (ofFirst nodes next isNext) (inductionHypothesis ofOthers applied)

/-- Applications of later rules are all undone by dissolving. -/
theorem dissolveAll_of_applyAll? {count : Nat} {applications : List Application}
    (areLater : ∀ application ∈ applications, count ≤ application.rule)
    {nodes left : List MarkedNode} (applied : applyAll? nodes applications = some left) :
    dissolveAll count left = dissolveAll count nodes :=
  relates_of_applyAll? (fun nodes left => dissolveAll count left = dissolveAll count nodes)
    (fun _ => rfl) (fun first second => second.trans first)
    (fun application isOne _ _ => dissolveAll_of_applyOne? (areLater application isOne)) applied

/-- Each mark is from before or that of an application. -/
theorem marksOfAll_of_applyAll? {applications : List Application} {nodes left : List MarkedNode}
    (applied : applyAll? nodes applications = some left) :
    marksOfAll left ⊆ applications.map Application.rule ++ marksOfAll nodes := by
  refine relates_of_applyAll?
    (fun nodes left => marksOfAll left ⊆ applications.map Application.rule ++ marksOfAll nodes)
    (fun _ => List.subset_append_right _ _) ?_ ?_ applied
  · intro first second third ofFirst ofSecond mark member
    rcases List.mem_append.mp (ofSecond member) with isNew | fromSecond
    · exact List.mem_append_left _ isNew
    · exact ofFirst fromSecond
  · intro application isOne nodes next isNext mark member
    rcases List.mem_cons.mp (marksOfAll_of_applyOne? isNext member) with rfl | old
    · exact List.mem_append_left _ (List.mem_map_of_mem isOne)
    · exact List.mem_append_right _ old

/-- A node after applications was there before, or is the phrase of one of them. -/
theorem mem_of_applyAll? {applications : List Application} {nodes left : List MarkedNode}
    (applied : applyAll? nodes applications = some left) {node : MarkedNode}
    (member : node ∈ descendantsOfAll left) :
    node ∈ descendantsOfAll nodes ∨ ∃ application ∈ applications, IsOf application node := by
  revert member
  refine relates_of_applyAll? (fun nodes left => node ∈ descendantsOfAll left →
      node ∈ descendantsOfAll nodes ∨ ∃ application ∈ applications, IsOf application node)
    (fun _ => Or.inl) ?_ ?_ applied
  · intro first second third ofFirst ofSecond member
    exact (ofSecond member).elim ofFirst Or.inr
  · intro application isOne nodes next isNext member
    exact (mem_of_applyOne? isNext member).imp_right fun isOf => ⟨application, isOne, isOf⟩

/-- Applications leave all nodes at their places. -/
theorem placedOfAll_of_applyAll? {applications : List Application} {nodes left : List MarkedNode}
    (applied : applyAll? nodes applications = some left) (offset : Nat) :
    Node.placedOfAll offset (eraseAll nodes) ⊆ Node.placedOfAll offset (eraseAll left) :=
  relates_of_applyAll? (fun nodes left =>
      Node.placedOfAll offset (eraseAll nodes) ⊆ Node.placedOfAll offset (eraseAll left))
    (fun _ => List.Subset.refl _) List.Subset.trans
    (fun _ _ _ _ isNext => placedOfAll_of_applyOne? isNext offset) applied

/-! ### Without the marks -/

theorem partAfter?_eraseAll (words : Nat) (nodes : List MarkedNode) :
    Node.partAfter? words (eraseAll nodes) =
      (partAfter? words nodes).map (Prod.map eraseAll eraseAll) := by
  induction words, nodes using partAfter?.induct with
  | case1 nodes => rw [Node.partAfter?_zero, partAfter?]; rfl
  | case2 words => rfl
  | case3 words node nodes fits inductionHypothesis =>
    rw [eraseAll, Node.partAfter?, partAfter?, if_pos fits, if_pos fits, inductionHypothesis,
      Option.map_map, Option.map_map]
    rfl
  | case4 words node nodes tooLarge =>
    rw [eraseAll, Node.partAfter?, partAfter?, if_neg tooLarge, if_neg tooLarge]
    rfl

/-- Marks make no difference for an application. -/
theorem applyOne?_eraseAll (nodes : List MarkedNode) (built : List Node)
    (application : Application) :
    (Replay.applyOne? ⟨eraseAll nodes, built⟩ application).map Replay.nodes =
      (applyOne? nodes application).map eraseAll := by
  rw [Replay.applyOne?, applyOne?, partAfter?_eraseAll]
  cases partAfter? application.start nodes with
  | none => rfl
  | some parts =>
    obtain ⟨before, later⟩ := parts
    simp only [Option.map_some, Prod.map_apply, Option.bind_eq_bind, Option.bind_some,
      partAfter?_eraseAll]
    cases partAfter? (application.stop - application.start) later with
    | none => rfl
    | some parts =>
      obtain ⟨children, after⟩ := parts
      simp only [Option.map_some, Prod.map_apply, Option.bind_some, Option.pure_def,
        eraseAll_append, eraseAll, erase]

/-- What is replayed without marks is replayed with them. -/
theorem exists_of_replay {applications : List Application} {nodes : List MarkedNode}
    {built : List Node} {replay : Replay}
    (applied : Replay.applyAll? ⟨eraseAll nodes, built⟩ applications = some replay) :
    ∃ left, applyAll? nodes applications = some left ∧ eraseAll left = replay.nodes := by
  induction applications generalizing nodes built with
  | nil =>
    cases applied
    exact ⟨nodes, rfl, rfl⟩
  | cons application others inductionHypothesis =>
    obtain ⟨next, isNext, applied⟩ := Option.bind_eq_some_iff.mp applied
    have marked := applyOne?_eraseAll nodes built application
    rw [isNext] at marked
    obtain ⟨left, isLeft, same⟩ := Option.map_eq_some_iff.mp marked.symm
    obtain ⟨next, nextBuilt⟩ := next
    obtain rfl : eraseAll left = next := same
    obtain ⟨last, isLast, sameLast⟩ := inductionHypothesis applied
    exact ⟨last, Option.bind_eq_some_iff.mpr ⟨left, isLeft, isLast⟩, sameLast⟩

end MarkedNode

end ShallowParse
