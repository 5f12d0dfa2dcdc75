import MyStudy.Lib.Bytes
import MyStudy.Lib.Components

/-!
# Connections in a network

`checkConnection.py`: the network is a sequence of texts `node1-node2`, and the nodes that are
connected are kept together in one set of a list of sets.
-/
namespace TestProject

open Components

/-- `item.split("-")`, where two parts have to come out of it: otherwise the assignment to the two
nodes raises an exception. -/
def splitItem (item : Bytes) : Option (Bytes × Bytes) :=
  match item.splitOn 45 with
  | [node1, node2] => some (node1, node2)
  | _ => none

/-- A set of `listSets`: the position in the list says which of the sets it is (`is`), for two may
be equal. -/
abbrev SetNode := Nat × Finset Bytes

/-- The loop over `listSets`: the last set with `node1` in it, and the last one with `node2` in
it. -/
def setNodes (listSets : List (Finset Bytes)) (node1 node2 : Bytes) :
    Option SetNode × Option SetNode :=
  listSets.zipIdx.foldl (fun (setNode1, setNode2) (curset, i) =>
    (if node1 ∈ curset then some (i, curset) else setNode1,
      if node2 ∈ curset then some (i, curset) else setNode2)) (none, none)

/-- What one item of the network does to the sets. -/
def connect (listSets : List (Finset Bytes)) (node1 node2 : Bytes) : List (Finset Bytes) :=
  match setNodes listSets node1 node2 with
  | (none, none) => listSets ++ [{node1, node2}]
  | (none, some (j, setNode2)) => listSets.set j (insert node1 setNode2)
  | (some (i, setNode1), none) => listSets.set i (insert node2 setNode1)
  | (some (i, setNode1), some (j, setNode2)) =>
    if i ≠ j then ((listSets.erase setNode1).erase setNode2) ++ [setNode1 ∪ setNode2] else listSets

def connectItem (listSets : List (Finset Bytes)) (item : Bytes) : Option (List (Finset Bytes)) :=
  (splitItem item).map fun (node1, node2) => connect listSets node1 node2

/-- `check_connection`, without the `print` of the sets. -/
def checkConnection (network : List Bytes) (first second : Bytes) : Option Bool :=
  (network.foldlM connectItem []).map
    fun listSets => listSets.any fun curset => first ∈ curset && second ∈ curset

/-- The item of the network for an edge. -/
def itemOf (edge : Bytes × Bytes) : Bytes := edge.1 ++ 45 :: edge.2

theorem splitItem_itemOf (edge : Bytes × Bytes) (name1 : 45 ∉ edge.1) (name2 : 45 ∉ edge.2) :
    splitItem (itemOf edge) = some edge := by
  rw [splitItem, itemOf, List.splitOn_append_cons_self_of_not_mem name1,
    List.splitOn_eq_singleton name2]

/-! ### The set of a node -/

/-- The last of the sets with the node in it. -/
def setNode (listSets : List (Finset Bytes)) (node : Bytes) : Option SetNode :=
  listSets.zipIdx.foldl (fun found (curset, i) => if node ∈ curset then some (i, curset) else found)
    none

theorem setNodes_eq (listSets : List (Finset Bytes)) (node1 node2 : Bytes) :
    setNodes listSets node1 node2 = (setNode listSets node1, setNode listSets node2) := by
  have each (sets : List (Finset Bytes × Nat)) (found1 found2 : Option SetNode) :
      sets.foldl (fun (setNode1, setNode2) (curset, i) =>
          (if node1 ∈ curset then some (i, curset) else setNode1,
            if node2 ∈ curset then some (i, curset) else setNode2)) (found1, found2) =
        (sets.foldl (fun found (curset, i) => if node1 ∈ curset then some (i, curset) else found)
          found1,
          sets.foldl (fun found (curset, i) => if node2 ∈ curset then some (i, curset) else found)
            found2) := by
    induction sets generalizing found1 found2 with
    | nil => rfl
    | cons s sets ih => exact ih _ _
  exact each _ none none

/-- A set that was found is there, and has the node in it; where none was found, none has it. -/
def Found (listSets : List (Finset Bytes)) (node : Bytes) : Option SetNode → Prop
  | none => ∀ s ∈ listSets, node ∉ s
  | some (i, s) => listSets[i]? = some s ∧ node ∈ s

theorem setNode_concat (listSets : List (Finset Bytes)) (s : Finset Bytes) (node : Bytes) :
    setNode (listSets ++ [s]) node =
      if node ∈ s then some (listSets.length, s) else setNode listSets node := by
  rw [setNode, List.zipIdx_append, List.foldl_append]
  simp only [List.zipIdx_singleton, List.foldl_cons, List.foldl_nil, Nat.zero_add]
  rfl

theorem setNode_found (listSets : List (Finset Bytes)) (node : Bytes) :
    Found listSets node (setNode listSets node) := by
  induction listSets using List.reverseRecOn with
  | nil => exact fun s member => nomatch member
  | append_singleton listSets s ih =>
    rw [setNode_concat]
    split
    case isTrue inside => exact ⟨by simp, inside⟩
    case isFalse outside =>
      -- not in the last set: it is in the one found before, or in none
      cases found : setNode listSets node with
      | none =>
        rw [found] at ih
        intro t member
        rcases List.mem_append.mp member with old | new
        · exact ih t old
        · exact List.mem_singleton.mp new ▸ outside
      | some at' =>
        rw [found] at ih
        exact ⟨by rw [List.getElem?_append_left (List.getElem?_eq_some_iff.mp ih.1).1, ih.1], ih.2⟩

/-! ### One item -/

variable {listSets : List (Finset Bytes)} {node1 node2 : Bytes}

/-- A node that is in no set yet comes to the set of the other one. -/
theorem merged_extend (apart : Apart listSets) {node other : Bytes} {i : Nat} {s : Finset Bytes}
    (absent : ∀ s ∈ listSets, other ∉ s) (place : listSets[i]? = some s) (inside : node ∈ s) :
    Merged listSets node other (listSets.set i (insert other s)) := by
  obtain ⟨below, rfl⟩ := List.getElem?_eq_some_iff.mp place
  have before : listSets.Perm ([listSets[i]] ++ listSets.eraseIdx i) :=
    (List.getElem_cons_eraseIdx_perm below).symm
  refine Merged.of_perm apart before (List.set_perm_cons_eraseIdx below _)
    (by simpa using .inl inside) (fun t member inT => ?_)
    (fun t member inT => absurd inT (absent t member)) ?_
  · exact List.mem_singleton.mpr (apart.eq member (List.getElem_mem below) inT inside)
  · intro x
    simp only [Finset.mem_insert, List.mem_singleton, exists_eq_left]
    constructor
    · exact .inr
    · rintro (rfl | either)
      · exact .inr inside
      · exact either

/-- A set that both nodes are in stays as it is. -/
theorem merged_self (apart : Apart listSets) {s : Finset Bytes} (member : s ∈ listSets)
    (inside1 : node1 ∈ s) (inside2 : node2 ∈ s) : Merged listSets node1 node2 listSets := by
  have before : listSets.Perm ([s] ++ listSets.erase s) := List.perm_cons_erase member
  refine Merged.of_perm apart before before (by simpa using .inl inside1) (fun t old inT => ?_)
    (fun t old inT => ?_)
    fun x => ?_
  · exact List.mem_singleton.mpr (apart.eq old member inT inside1)
  · exact List.mem_singleton.mpr (apart.eq old member inT inside2)
  · simp only [List.mem_singleton, exists_eq_left]
    constructor
    · exact .inr ∘ .inr
    · rintro (rfl | rfl | inS)
      · exact inside1
      · exact inside2
      · exact inS

/-- Two sets with one of the nodes each are taken out, and what was in them is one set behind the
others. -/
theorem merged_union (apart : Apart listSets) {s1 s2 : Finset Bytes} (member1 : s1 ∈ listSets)
    (member2 : s2 ∈ listSets) (other : s1 ≠ s2) (inside1 : node1 ∈ s1) (inside2 : node2 ∈ s2) :
    Merged listSets node1 node2 ((listSets.erase s1).erase s2 ++ [s1 ∪ s2]) := by
  have left : s2 ∈ listSets.erase s1 := (List.mem_erase_of_ne other.symm).mpr member2
  have before : listSets.Perm ([s1, s2] ++ (listSets.erase s1).erase s2) :=
    (List.perm_cons_erase member1).trans ((List.perm_cons_erase left).cons s1)
  refine Merged.of_perm apart before (List.perm_append_singleton _ _) ?_ (fun t old inT => ?_)
    (fun t old inT => ?_)
    fun x => ?_
  · simpa using ⟨.inl inside1, .inr inside2⟩
  · exact List.mem_cons.mpr (.inl (apart.eq old member1 inT inside1))
  · exact List.mem_cons_of_mem _ (List.mem_singleton.mpr (apart.eq old member2 inT inside2))
  · simp only [Finset.mem_union, List.mem_cons, List.not_mem_nil, or_false, exists_eq_or_imp,
      exists_eq_left]
    constructor
    · exact .inr ∘ .inr
    · rintro (rfl | rfl | inS)
      · exact .inl inside1
      · exact .inr inside2
      · exact inS

/-- Two nodes that are in no set make a set of their own. -/
theorem merged_new (apart : Apart listSets) (absent1 : ∀ s ∈ listSets, node1 ∉ s)
    (absent2 : ∀ s ∈ listSets, node2 ∉ s) :
    Merged listSets node1 node2 (listSets ++ [{node1, node2}]) := by
  have before : listSets.Perm ([] ++ listSets) := .refl _
  refine Merged.of_perm apart before (List.perm_append_singleton _ _) (by simp)
    (fun t old inT => ?_)
    (fun t old inT => ?_) (by simp)
  · exact absurd inT (absent1 t old)
  · exact absurd inT (absent2 t old)

theorem connect_merged (apart : Apart listSets) (node1 node2 : Bytes) :
    Merged listSets node1 node2 (connect listSets node1 node2) := by
  have found1 := setNode_found listSets node1
  have found2 := setNode_found listSets node2
  rw [connect, setNodes_eq]
  match at1 : setNode listSets node1, at2 : setNode listSets node2 with
  | none, none =>
    rw [at1] at found1
    rw [at2] at found2
    exact merged_new apart found1 found2
  | none, some (j, s2) =>
    rw [at1] at found1
    rw [at2] at found2
    exact (merged_extend apart found1 found2.1 found2.2).symm
  | some (i, s1), none =>
    rw [at1] at found1
    rw [at2] at found2
    exact merged_extend apart found2 found1.1 found1.2
  | some (i, s1), some (j, s2) =>
    rw [at1] at found1
    rw [at2] at found2
    obtain ⟨place1, inside1⟩ := found1
    obtain ⟨place2, inside2⟩ := found2
    have member1 := List.mem_of_getElem? place1
    have member2 := List.mem_of_getElem? place2
    dsimp only
    split
    case isTrue apartPlaces =>
      -- no set is in the list twice, so two places are two sets
      have other : s1 ≠ s2 := by
        rintro rfl
        obtain ⟨below, -⟩ := List.getElem?_eq_some_iff.mp place1
        exact apartPlaces ((List.getElem?_inj below apart.nodup).mp (place1.trans place2.symm))
      exact merged_union apart member1 member2 other inside1 inside2
    case isFalse samePlace =>
      rw [not_not] at samePlace
      subst samePlace
      obtain rfl : s1 = s2 := Option.some.inj (place1.symm.trans place2)
      exact merged_self apart member1 inside1 inside2

/-! ### The network -/

/-- After some items the sets are the components of the network so far. -/
theorem foldlM_connectItem (edges : List (Bytes × Bytes))
    (names : ∀ e ∈ edges, 45 ∉ e.1 ∧ 45 ∉ e.2) :
    ∃ listSets, (edges.map itemOf).foldlM connectItem [] = some listSets ∧ Of edges listSets := by
  induction edges using List.reverseRecOn with
  | nil => exact ⟨[], rfl, .nil⟩
  | append_singleton edges edge ih =>
    obtain ⟨listSets, run, of⟩ := ih fun e member => names e (List.mem_append_left _ member)
    obtain ⟨name1, name2⟩ := names edge (by simp)
    refine ⟨connect listSets edge.1 edge.2, ?_, of.concat (connect_merged of.apart edge.1 edge.2)⟩
    rw [List.map_append, List.foldlM_append, run]
    simp [connectItem, splitItem_itemOf edge name1 name2]

/-- The answer is whether both names occur in the network and a path joins them. -/
theorem checkConnection_joined (edges : List (Bytes × Bytes))
    (names : ∀ e ∈ edges, 45 ∉ e.1 ∧ 45 ∉ e.2) (first second : Bytes) :
    ∃ answer, checkConnection (edges.map itemOf) first second = some answer ∧
      (answer = true ↔ Occurs edges first ∧ Occurs edges second ∧ Joined edges first second) := by
  obtain ⟨listSets, run, of⟩ := foldlM_connectItem edges names
  refine ⟨_, by rw [checkConnection, run]; rfl, ?_⟩
  have together : (listSets.any fun curset => first ∈ curset && second ∈ curset) = true ↔
      Together listSets first second := by
    simp [Together]
  rw [together, of.together]
  constructor
  · rintro ⟨occurs, joined⟩
    refine ⟨occurs, ?_, joined⟩
    -- a path that is more than its start ends in a name of the network
    rcases joined.occurs with rfl | both
    · exact occurs
    · exact both.2
  · rintro ⟨occurs, -, joined⟩
    exact ⟨occurs, joined⟩

/-- Some of the scouts of the self-checks. -/
def scouts : List (Bytes × Bytes) :=
  [(ascii "scout1", ascii "scout2"), (ascii "scout3", ascii "scout1"),
    (ascii "dr101", ascii "mr99")]

theorem checkConnection_joined_scouts :
    ∃ answer, checkConnection (scouts.map itemOf) (ascii "scout2") (ascii "scout3") = some answer ∧
      (answer = true ↔ Occurs scouts (ascii "scout2") ∧ Occurs scouts (ascii "scout3") ∧
        Joined scouts (ascii "scout2") (ascii "scout3")) :=
  checkConnection_joined scouts (by decide) _ _

end TestProject
