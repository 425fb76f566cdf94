/-
# The dial topology of the mesh

Each node of the mesh dials some of the nodes with a greater id (`select_dial_targets`,
`src/a9/webrtc.rs`): the next ones, and others evenly spread over the rest. The edge to the
immediate successor makes the whole mesh one component. How many nodes dial a given one
is a count over the floors of all lower nodes' index formulas; with degree 12 it is below
the cap on connections at every size of the mesh.

Of an id only its order is used. `none` is an index out of bounds.

Key definitions: `selectDialTargets`, `targetOffsets`, `dials`, `meshGraph`, `neighbours`.
Key theorems: `select_eq`, `dials_iff`, `card_accepted_le`, `meshGraph_preconnected`, `dial_topology`.
-/
import Alphanumeric.Mesh
import Mathlib.Combinatorics.SimpleGraph.Hasse
import Mathlib.Data.List.Destutter

namespace Alphanumeric

namespace MeshTopology

variable {α : Type} [LinearOrder α]

def meshDegree : ℕ := 12

def selectDialTargets (localId : α) (sortedIds : List α) (degree : ℕ) : Option (List α) :=
  if degree = 0 then some []
  else
    let higher := sortedIds.filter fun id => localId < id
    if higher.length ≤ degree then some higher
    else
      let near := max (degree / 2) 1
      if higher.length < near ∨ degree < near then none
      else
        let out := higher.take near
        let rest := higher.drop near
        let want := degree - near
        if 0 < want ∧ rest ≠ [] then
          match (List.range want).mapM fun i => rest[i * rest.length / want]? with
          | some spread => some ((out ++ spread).destutter (· ≠ ·))
          | none => none
        else some (out.destutter (· ≠ ·))

/-! ### The places of the targets -/

/-- Where the targets are among `count` higher ids. -/
def targetOffsets (count degree : ℕ) : List ℕ :=
  if count ≤ degree then List.range count
  else
    let near := max (degree / 2) 1
    let want := degree - near
    List.range near ++ (List.range want).map fun i => near + i * (count - near) / want

theorem near_le {degree : ℕ} (hdegree : 0 < degree) : max (degree / 2) 1 ≤ degree := by
  rw [max_le_iff]
  omega

theorem length_targetOffsets {count degree : ℕ} (hdegree : 0 < degree) :
    (targetOffsets count degree).length ≤ degree := by
  unfold targetOffsets
  split_ifs with hcount
  · rwa [List.length_range]
  · have hnear := near_le hdegree
    rw [List.length_append, List.length_map, List.length_range, List.length_range]
    omega

/-- The places of the spread targets grow by one at least. -/
theorem spread_strictMono {count want i j : ℕ} (hwant : want ≤ count) (hpositive : 0 < want) (hij : i < j) :
    i * count / want < j * count / want := by
  have hstep : i * count + want ≤ j * count := by
    calc i * count + want ≤ i * count + count := Nat.add_le_add_left hwant _
      _ = (i + 1) * count := (Nat.succ_mul i count).symm
      _ ≤ j * count := Nat.mul_le_mul_right count hij
  calc i * count / want < i * count / want + 1 := Nat.lt_succ_self _
    _ = (i * count + want) / want := (Nat.add_div_right _ hpositive).symm
    _ ≤ j * count / want := Nat.div_le_div_right hstep

theorem pairwise_targetOffsets (count : ℕ) {degree : ℕ} (hdegree : 0 < degree) :
    (targetOffsets count degree).Pairwise (· < ·) := by
  unfold targetOffsets
  split_ifs with hcount
  · exact List.pairwise_lt_range
  · have hnear := near_le hdegree
    dsimp only
    set near := max (degree / 2) 1
    refine List.pairwise_append.mpr ⟨List.pairwise_lt_range, ?_, ?_⟩
    · rw [List.pairwise_map]
      refine List.pairwise_lt_range.imp_of_mem fun {i j} hi _ hij => ?_
      have hpositive : 0 < degree - near := (Nat.zero_le i).trans_lt (List.mem_range.mp hi)
      exact Nat.add_lt_add_left (spread_strictMono (by omega) hpositive hij) near
    · intro p hp q hq
      obtain ⟨i, -, rfl⟩ := List.mem_map.mp hq
      exact (List.mem_range.mp hp).trans_le (Nat.le_add_right _ _)

theorem spread_lt {count want i : ℕ} (hi : i < want) (hcount : 0 < count) : i * count / want < count := by
  rw [Nat.div_lt_iff_lt_mul (by omega), Nat.mul_comm count want]
  exact Nat.mul_lt_mul_of_pos_right hi hcount

theorem lt_of_mem_targetOffsets {count degree k : ℕ} (h : k ∈ targetOffsets count degree) (hdegree : 0 < degree) :
    k < count := by
  unfold targetOffsets at h
  split_ifs at h with hcount
  · exact List.mem_range.mp h
  · have hnear := near_le hdegree
    dsimp only at h
    set near := max (degree / 2) 1
    rcases List.mem_append.mp h with hnext | hspread
    · have := List.mem_range.mp hnext
      omega
    · obtain ⟨i, hi, rfl⟩ := List.mem_map.mp hspread
      have := spread_lt (List.mem_range.mp hi) (by omega : 0 < count - near)
      omega

theorem zero_mem_targetOffsets {count degree : ℕ} (hcount : 0 < count) : 0 ∈ targetOffsets count degree := by
  unfold targetOffsets
  split_ifs
  · exact List.mem_range.mpr hcount
  · exact List.mem_append_left _ (List.mem_range.mpr (Nat.lt_of_lt_of_le Nat.zero_lt_one (le_max_right _ _)))

/-! ### The targets -/

section Targets

variable {before after : List α} {x : α} {degree : ℕ}

theorem higher_eq (hsorted : (before ++ x :: after).Pairwise (· < ·)) :
    (before ++ x :: after).filter (fun id => x < id) = after := by
  rw [List.pairwise_append, List.pairwise_cons] at hsorted
  obtain ⟨-, ⟨hafter, -⟩, hbefore⟩ := hsorted
  have hnone : before.filter (fun id => x < id) = [] := by
    rw [List.filter_eq_nil_iff]
    intro y hy
    simpa using (hbefore y hy x List.mem_cons_self).le
  have hall : after.filter (fun id => x < id) = after := by
    rw [List.filter_eq_self]
    intro y hy
    simpa using hafter y hy
  rw [List.filter_append, hnone, List.nil_append, List.filter_cons_of_neg (by simp), hall]

omit [LinearOrder α] in
/-- The entries of a list at some places. -/
theorem mapM_getElem? {places : List ℕ} {ids : List α} (h : ∀ k ∈ places, k < ids.length) :
    places.mapM (fun k => ids[k]?) = some (places.filterMap fun k => ids[k]?) := by
  induction places with
  | nil => rfl
  | cons k places ih =>
    have hplace := h k List.mem_cons_self
    have hk : ids[k]? = some ids[k] := List.getElem?_eq_getElem hplace
    rw [List.mapM_cons, hk, ih fun p hp => h p (List.mem_cons_of_mem _ hp), List.filterMap_cons_some hk]
    rfl

/-- In an ascending list the entries at growing places ascend. -/
theorem pairwise_filterMap {ids : List α} (hids : ids.Pairwise (· < ·)) {places : List ℕ}
    (hplaces : places.Pairwise (· < ·)) : (places.filterMap fun k => ids[k]?).Pairwise (· < ·) := by
  rw [List.pairwise_filterMap]
  refine hplaces.imp fun {i j} hij y hy z hz => ?_
  obtain ⟨hi, rfl⟩ := List.getElem?_eq_some_iff.mp hy
  obtain ⟨hj, rfl⟩ := List.getElem?_eq_some_iff.mp hz
  exact List.pairwise_iff_getElem.mp hids i j hi hj hij

omit [LinearOrder α] in
theorem filterMap_range (ids : List α) : ∀ n, (List.range n).filterMap (fun k => ids[k]?) = ids.take n
  | 0 => rfl
  | n + 1 => by
    rw [List.range_succ, List.filterMap_append, filterMap_range ids n, List.take_add_one]
    cases hn : ids[n]? with
    | none => rw [List.filterMap_cons_none hn]; rfl
    | some id => rw [List.filterMap_cons_some hn]; rfl

/-- No index is out of bounds, nothing is chosen twice, and the targets are the ids at the target places. -/
theorem select_eq (hsorted : (before ++ x :: after).Pairwise (· < ·)) (hdegree : 0 < degree) :
    selectDialTargets x (before ++ x :: after) degree =
      some ((targetOffsets after.length degree).filterMap fun k => after[k]?) := by
  have hafter : after.Pairwise (· < ·) := (List.pairwise_cons.mp (List.pairwise_append.mp hsorted).2.1).2
  have hplaces := pairwise_filterMap hafter (pairwise_targetOffsets after.length hdegree)
  rw [selectDialTargets, if_neg (by omega), higher_eq hsorted]
  dsimp only
  unfold targetOffsets at hplaces ⊢
  by_cases hcount : after.length ≤ degree
  · rw [if_pos hcount, if_pos hcount, filterMap_range, List.take_length]
  · rw [if_neg hcount] at hplaces ⊢
    rw [if_neg hcount]
    have hnear := near_le hdegree
    dsimp only at hplaces ⊢
    set near := max (degree / 2) 1
    have hlength : (after.drop near).length = after.length - near := List.length_drop
    have hrest : after.drop near ≠ [] := by
      rw [← List.length_pos_iff, hlength]
      omega
    rw [if_neg (by omega)]
    rw [List.filterMap_append, filterMap_range, List.filterMap_map] at hplaces ⊢
    by_cases hwant : 0 < degree - near
    · have hinside : ∀ k ∈ (List.range (degree - near)).map fun i => i * (after.drop near).length / (degree - near),
          k < (after.drop near).length := by
        intro k hk
        obtain ⟨i, hi, rfl⟩ := List.mem_map.mp hk
        exact spread_lt (List.mem_range.mp hi) (List.length_pos_iff.mpr hrest)
      have hsame : ∀ i, (after.drop near)[i * (after.drop near).length / (degree - near)]? =
          after[near + i * (after.length - near) / (degree - near)]? := fun i => by
        rw [List.getElem?_drop, hlength]
      have hspread : ((List.range (degree - near)).mapM fun i =>
          (after.drop near)[i * (after.drop near).length / (degree - near)]?) =
          some ((List.range (degree - near)).filterMap ((fun k => after[k]?) ∘
            fun i => near + i * (after.length - near) / (degree - near))) := by
        have hall := mapM_getElem? hinside
        rw [List.mapM_map, List.filterMap_map] at hall
        refine hall.trans (congrArg some (List.filterMap_congr fun i _ => hsame i))
      rw [if_pos ⟨hwant, hrest⟩, hspread]
      exact congrArg some (List.destutter_of_isChain _ _ (hplaces.imp ne_of_lt).isChain)
    · have hnone : List.range (degree - near) = [] := by
        rw [Nat.eq_zero_of_not_pos hwant]
        rfl
      rw [if_neg fun h => hwant h.1, hnone, List.filterMap_nil, List.append_nil]
      rw [hnone, List.filterMap_nil, List.append_nil] at hplaces
      exact congrArg some (List.destutter_of_isChain _ _ (hplaces.imp ne_of_lt).isChain)

end Targets

/-! ### Who dials whom -/

/-- The node `x` dials `y`. -/
def dials (ids : List α) (degree : ℕ) (x y : α) : Bool :=
  match selectDialTargets x ids degree with
  | some targets => targets.contains y
  | none => false

/-- The nodes that `x` dials and those that dial it. -/
def neighbours (ids : List α) (degree : ℕ) (x : α) : List α :=
  ids.filter fun y => dials ids degree x y || dials ids degree y x

/-- The edges of the mesh, in both directions. -/
def meshGraph (ids : List α) (degree : ℕ) : SimpleGraph {id // id ∈ ids} :=
  SimpleGraph.fromRel fun x y => dials ids degree x y = true

section Dials

variable {ids : List α} {degree : ℕ}

omit [LinearOrder α] in
theorem split_at {a : ℕ} (ha : a < ids.length) : ids = ids.take a ++ ids[a] :: ids.drop (a + 1) := by
  rw [← List.drop_eq_getElem_cons ha, List.take_append_drop]

theorem select_at (hsorted : ids.Pairwise (· < ·)) (hdegree : 0 < degree) {a : ℕ} (ha : a < ids.length) :
    selectDialTargets ids[a] ids degree =
      some ((targetOffsets (ids.length - (a + 1)) degree).filterMap fun k => ids[a + 1 + k]?) := by
  have hsplit := split_at ha
  have hselect := select_eq (hsplit ▸ hsorted) hdegree
  rw [← hsplit] at hselect
  rw [hselect, List.length_drop]
  exact congrArg some (List.filterMap_congr fun k _ => List.getElem?_drop)

/-- Of two nodes the one at place `a` dials the one at place `b` exactly if `b` is at a target place of it. -/
theorem dials_iff (hsorted : ids.Pairwise (· < ·)) (hdegree : 0 < degree) {a b : ℕ} (ha : a < ids.length)
    (hb : b < ids.length) : dials ids degree ids[a] ids[b] = true ↔
      a < b ∧ b - (a + 1) ∈ targetOffsets (ids.length - (a + 1)) degree := by
  have hnodup : ids.Nodup := hsorted.imp ne_of_lt
  rw [dials, select_at hsorted hdegree ha]
  dsimp only
  rw [List.contains_iff_mem, List.mem_filterMap]
  constructor
  · rintro ⟨k, hk, hget⟩
    obtain ⟨hplace, hid⟩ := List.getElem?_eq_some_iff.mp hget
    have hsame : a + 1 + k = b := hnodup.getElem_inj_iff.mp hid
    subst hsame
    exact ⟨by omega, by rwa [Nat.add_sub_cancel_left]⟩
  · rintro ⟨hlt, hmem⟩
    refine ⟨_, hmem, ?_⟩
    rw [Nat.add_sub_cancel' hlt]
    exact List.getElem?_eq_getElem hb

theorem dials_lt (hsorted : ids.Pairwise (· < ·)) (hdegree : 0 < degree) {x y : α} (hx : x ∈ ids) (hy : y ∈ ids)
    (h : dials ids degree x y = true) : x < y := by
  obtain ⟨a, ha, rfl⟩ := List.getElem_of_mem hx
  obtain ⟨b, hb, rfl⟩ := List.getElem_of_mem hy
  exact List.pairwise_iff_getElem.mp hsorted a b ha hb ((dials_iff hsorted hdegree ha hb).mp h).1

theorem dials_succ (hsorted : ids.Pairwise (· < ·)) (hdegree : 0 < degree) {a : ℕ} (ha : a + 1 < ids.length) :
    dials ids degree ids[a] ids[a + 1] = true := by
  refine (dials_iff hsorted hdegree (by omega) ha).mpr ⟨Nat.lt_succ_self a, ?_⟩
  rw [Nat.sub_self]
  exact zero_mem_targetOffsets (by omega)

/-- The edges to the successors hold the mesh together. -/
theorem meshGraph_preconnected (hsorted : ids.Pairwise (· < ·)) (hdegree : 0 < degree) :
    (meshGraph ids degree).Preconnected := by
  let node : Fin ids.length → {id // id ∈ ids} := fun i => ⟨ids[i], List.getElem_mem i.isLt⟩
  have hnext : ∀ {i j : Fin ids.length}, i.val + 1 = j.val → dials ids degree (node i) (node j) = true := by
    intro i j hij
    have hj : i.val + 1 < ids.length := hij ▸ j.isLt
    have hsame : j = ⟨i.val + 1, hj⟩ := Fin.ext hij.symm
    rw [hsame]
    exact dials_succ hsorted hdegree hj
  have hadj : ∀ {i j : Fin ids.length}, (SimpleGraph.pathGraph ids.length).Adj i j →
      (meshGraph ids degree).Adj (node i) (node j) := by
    intro i j hij
    rw [meshGraph, SimpleGraph.fromRel_adj]
    refine ⟨fun hsame => hij.ne ?_, (SimpleGraph.pathGraph_adj.mp hij).imp hnext hnext⟩
    have hnodup : ids.Nodup := hsorted.imp ne_of_lt
    exact Fin.ext (hnodup.getElem_inj_iff.mp (Subtype.ext_iff.mp hsame))
  refine (SimpleGraph.pathGraph_preconnected ids.length).map ⟨node, hadj⟩ ?_
  rintro ⟨x, hx⟩
  obtain ⟨a, ha, rfl⟩ := List.getElem_of_mem hx
  exact ⟨⟨a, ha⟩, rfl⟩

end Dials

/-! ### How many dial a node -/

/-- The lower places from which the place `j` of `n` is dialled. -/
def accepted (n j : ℕ) : Finset ℕ :=
  (Finset.range j).filter fun a => j - (a + 1) ∈ targetOffsets (n - (a + 1)) meshDegree

/-- The lower places whose `i`-th spread target is the place `j`. -/
def spreadTo (n j i : ℕ) : Finset ℕ :=
  (Finset.range j).filter fun a => meshDegree < n - (a + 1) ∧ j = a + 7 + i * (n - (a + 7)) / 6

/-- Numbers that are within `k` of each other are `k` at most. -/
theorem card_le_of_close {k : ℕ} {places : Finset ℕ} (h : ∀ a ∈ places, ∀ b ∈ places, a < b → b < a + k) (hk : 0 < k) :
    places.card ≤ k := by
  rcases places.eq_empty_or_nonempty with rfl | hne
  · exact Nat.zero_le _
  · set least := places.min' hne
    have hsub : places ⊆ Finset.Ico least (least + k) := by
      intro b hb
      have hle : least ≤ b := places.min'_le b hb
      rw [Finset.mem_Ico]
      rcases hle.eq_or_lt with heq | hlt
      · omega
      · exact ⟨hle, h least (places.min'_mem hne) b hb hlt⟩
    calc places.card ≤ (Finset.Ico least (least + k)).card := Finset.card_le_card hsub
      _ = k := by rw [Nat.card_Ico, Nat.add_sub_cancel_left]

/-- One step of a lower node moves its target by a sixth of a place at least, as the spread goes up to five
sixths only. -/
theorem card_spreadTo_le {n j i : ℕ} (hi : i ≤ 5) : (spreadTo n j i).card ≤ 6 := by
  refine card_le_of_close (fun a ha b hb hab => ?_) (by omega)
  rw [spreadTo, Finset.mem_filter] at ha hb
  obtain ⟨-, hroomA, hA⟩ := ha
  obtain ⟨-, hroomB, hB⟩ := hb
  rw [meshDegree] at hroomA hroomB
  interval_cases i <;> omega

theorem accepted_subset (n j : ℕ) :
    accepted n j ⊆ Finset.Ico (j - 12) j ∪ (Finset.Icc 1 5).biUnion (spreadTo n j) := by
  intro a ha
  rw [accepted, Finset.mem_filter, Finset.mem_range] at ha
  obtain ⟨hlt, hmem⟩ := ha
  have hbound := lt_of_mem_targetOffsets hmem (by decide)
  rw [Finset.mem_union, Finset.mem_Ico, Finset.mem_biUnion]
  by_cases hnear : j - 12 ≤ a
  · exact .inl ⟨hnear, hlt⟩
  · right
    unfold targetOffsets at hmem
    have hmany : ¬ n - (a + 1) ≤ meshDegree := by
      rw [meshDegree]
      omega
    rw [if_neg hmany] at hmem
    rcases List.mem_append.mp hmem with hnext | hspread
    · have hsix : j - (a + 1) < 6 := List.mem_range.mp hnext
      omega
    · obtain ⟨i, hi, hplace⟩ := List.mem_map.mp hspread
      have hi6 : i < 6 := List.mem_range.mp hi
      have hplace6 : 6 + i * (n - (a + 1) - 6) / 6 = j - (a + 1) := hplace
      have hcount : n - (a + 1) - 6 = n - (a + 7) := by omega
      rw [hcount] at hplace6
      have hpositive : i ≠ 0 := by
        rintro rfl
        omega
      refine ⟨i, Finset.mem_Icc.mpr ⟨by omega, by omega⟩, ?_⟩
      rw [spreadTo, Finset.mem_filter, Finset.mem_range]
      exact ⟨hlt, Nat.lt_of_not_le hmany, by omega⟩

/-- A node is dialled by 42 nodes at most, whatever the size of the mesh. -/
theorem card_accepted_le (n j : ℕ) : (accepted n j).card ≤ 42 := by
  calc (accepted n j).card
      ≤ (Finset.Ico (j - 12) j ∪ (Finset.Icc 1 5).biUnion (spreadTo n j)).card :=
        Finset.card_le_card (accepted_subset n j)
    _ ≤ (Finset.Ico (j - 12) j).card + ((Finset.Icc 1 5).biUnion (spreadTo n j)).card := Finset.card_union_le _ _
    _ ≤ 12 + 5 * 6 := by
        refine Nat.add_le_add (by rw [Nat.card_Ico]; omega) ?_
        exact Finset.card_biUnion_le_card_mul (Finset.Icc 1 5) _ 6 fun i hi =>
          card_spreadTo_le (Finset.mem_Icc.mp hi).2

/-! ### The topology -/

section Topology

variable {ids : List α} {degree : ℕ}

theorem nodup_neighbours (hsorted : ids.Pairwise (· < ·)) (x : α) : (neighbours ids degree x).Nodup :=
  (hsorted.imp ne_of_lt).filter _

/-- A node has an edge with 54 others at most. -/
theorem length_neighbours_le (hsorted : ids.Pairwise (· < ·)) {x : α} (hx : x ∈ ids) :
    (neighbours ids meshDegree x).length ≤ 54 := by
  obtain ⟨j, hj, rfl⟩ := List.getElem_of_mem hx
  set dialled := (targetOffsets (ids.length - (j + 1)) meshDegree).toFinset.image fun k => j + 1 + k
  have hplaces : ∀ y ∈ (neighbours ids meshDegree ids[j]).toFinset, ids.idxOf y ∈ dialled ∪ accepted ids.length j := by
    intro y hy
    obtain ⟨hmem, hedge⟩ := List.mem_filter.mp (List.mem_toFinset.mp hy)
    obtain ⟨b, hb, rfl⟩ := List.getElem_of_mem hmem
    have hnodup : ids.Nodup := hsorted.imp ne_of_lt
    rw [hnodup.idxOf_getElem b hb, Finset.mem_union]
    rw [Bool.or_eq_true] at hedge
    refine hedge.imp (fun hout => ?_) fun hin => ?_
    · obtain ⟨hlt, hplace⟩ := (dials_iff hsorted (by decide) hj hb).mp hout
      exact Finset.mem_image.mpr ⟨b - (j + 1), List.mem_toFinset.mpr hplace, by omega⟩
    · obtain ⟨hlt, hplace⟩ := (dials_iff hsorted (by decide) hb hj).mp hin
      exact Finset.mem_filter.mpr ⟨Finset.mem_range.mpr hlt, hplace⟩
  have hinjective : Set.InjOn (fun y => ids.idxOf y) (neighbours ids meshDegree ids[j]).toFinset := by
    intro y hy z _ hsame
    exact (List.idxOf_inj (List.mem_filter.mp (List.mem_toFinset.mp hy)).1).mp hsame
  have hdialled : dialled.card ≤ meshDegree :=
    Finset.card_image_le.trans ((List.toFinset_card_le _).trans (length_targetOffsets (by decide)))
  calc (neighbours ids meshDegree ids[j]).length
      = (neighbours ids meshDegree ids[j]).toFinset.card :=
        (List.toFinset_card_of_nodup (nodup_neighbours hsorted _)).symm
    _ ≤ (dialled ∪ accepted ids.length j).card := Finset.card_le_card_of_injOn _ hplaces hinjective
    _ ≤ dialled.card + (accepted ids.length j).card := Finset.card_union_le _ _
    _ ≤ 12 + 42 := Nat.add_le_add hdialled (card_accepted_le _ _)

/-- Connections with some of the neighbours leave room for one with another. -/
theorem room_for_edge (hsorted : ids.Pairwise (· < ·)) {x : α} (hx : x ∈ ids) {conns : List α} {peer : α}
    (hconns : conns.Nodup) (hsub : ∀ p ∈ conns, p ∈ neighbours ids meshDegree x)
    (hpeer : peer ∈ neighbours ids meshDegree x) (hnew : peer ∉ conns) : conns.length < meshMaxConns := by
  have hall : peer :: conns ⊆ neighbours ids meshDegree x := List.cons_subset.mpr ⟨hpeer, hsub⟩
  have hle := ((List.nodup_cons.mpr ⟨hnew, hconns⟩).subperm hall).length_le
  have hfew := length_neighbours_le hsorted hx
  rw [List.length_cons] at hle
  rw [meshMaxConns]
  omega

/-- What a node dials: some greater ids, the successor among them, and all of them if they are few. -/
theorem select_spec (hsorted : ids.Pairwise (· < ·)) (hdegree : 0 < degree) {x : α} (hx : x ∈ ids) :
    ∃ targets, selectDialTargets x ids degree = some targets ∧ targets.length ≤ degree ∧ targets.Nodup ∧
      (∀ t ∈ targets, t ∈ ids ∧ x < t) ∧
      (∀ s ∈ ids, x < s → (∀ y ∈ ids, x < y → s ≤ y) → s ∈ targets) ∧
      ((ids.filter fun y => x < y).length ≤ degree → ∀ s ∈ ids, x < s → s ∈ targets) := by
  obtain ⟨a, ha, rfl⟩ := List.getElem_of_mem hx
  have hselect := select_at hsorted hdegree ha
  set targets := (targetOffsets (ids.length - (a + 1)) degree).filterMap fun k => ids[a + 1 + k]? with htargets
  have hdials : ∀ y, dials ids degree ids[a] y = true ↔ y ∈ targets := by
    intro y
    rw [dials, hselect]
    exact List.contains_iff_mem
  have hmem : ∀ t ∈ targets, t ∈ ids := by
    intro t ht
    obtain ⟨k, -, hk⟩ := List.mem_filterMap.mp ht
    exact List.mem_of_getElem? hk
  refine ⟨targets, hselect, ?_, ?_, fun t ht => ⟨hmem t ht, ?_⟩, fun s hs hlt hleast => ?_, fun hfew s hs hlt => ?_⟩
  · exact (List.length_filterMap_le _ _).trans (length_targetOffsets hdegree)
  · have hafter : (ids.drop (a + 1)).Pairwise (· < ·) := hsorted.sublist (List.drop_sublist _ _)
    have hpairwise := pairwise_filterMap hafter (pairwise_targetOffsets (ids.length - (a + 1)) hdegree)
    have hsame : targets = (targetOffsets (ids.length - (a + 1)) degree).filterMap
        fun k => (ids.drop (a + 1))[k]? :=
      List.filterMap_congr fun k _ => List.getElem?_drop.symm
    rw [hsame]
    exact hpairwise.imp ne_of_lt
  · exact dials_lt hsorted hdegree hx (hmem t ht) ((hdials t).mpr ht)
  · -- the successor is at the next place
    obtain ⟨b, hb, rfl⟩ := List.getElem_of_mem hs
    have hab : a < b := by
      by_contra hle
      rcases (Nat.le_of_not_lt hle).eq_or_lt with heq | hless
      · subst heq
        exact lt_irrefl _ hlt
      · exact lt_asymm hlt (List.pairwise_iff_getElem.mp hsorted b a hb ha hless)
    have hnext : a + 1 < ids.length := by omega
    have hsucc := hleast _ (List.getElem_mem hnext)
      (List.pairwise_iff_getElem.mp hsorted a (a + 1) ha hnext (Nat.lt_succ_self a))
    have hplace : b = a + 1 := by
      by_contra hne
      have hbeyond := List.pairwise_iff_getElem.mp hsorted (a + 1) b hnext hb (by omega)
      exact absurd hsucc (not_le_of_gt hbeyond)
    subst hplace
    exact (hdials _).mp (dials_succ hsorted hdegree hb)
  · have hall : ids.filter (fun y => ids[a] < y) = ids.drop (a + 1) := by
      have hsplit := split_at ha
      have hhigher := higher_eq (hsplit ▸ hsorted)
      rwa [← hsplit] at hhigher
    have hin : s ∈ ids.drop (a + 1) := hall ▸ List.mem_filter.mpr ⟨hs, by simpa using hlt⟩
    rw [hall, List.length_drop] at hfew
    obtain ⟨k, hk, hget⟩ := List.getElem_of_mem hin
    rw [List.length_drop] at hk
    rw [htargets, List.mem_filterMap]
    refine ⟨k, ?_, ?_⟩
    · rw [targetOffsets, if_pos hfew]
      exact List.mem_range.mpr hk
    · rw [← List.getElem?_drop, ← hget]
      exact List.getElem?_eq_getElem _

/-- **The mesh's dial topology.** Every node dials at most `degree` distinct greater ids, the immediate
successor among them; the edges connect the whole mesh; no two nodes dial each other; and at degree 12
the cap on connections has room for every edge. -/
theorem dial_topology (ids : List α) (degree : ℕ) (hsorted : ids.Pairwise (· < ·)) (hdegree : 0 < degree) :
    (∀ x ∈ ids, ∃ targets, selectDialTargets x ids degree = some targets ∧ targets.length ≤ degree ∧ targets.Nodup ∧
      (∀ t ∈ targets, t ∈ ids ∧ x < t) ∧
      (∀ s ∈ ids, x < s → (∀ y ∈ ids, x < y → s ≤ y) → s ∈ targets) ∧
      ((ids.filter fun y => x < y).length ≤ degree → ∀ s ∈ ids, x < s → s ∈ targets)) ∧
    (meshGraph ids degree).Preconnected ∧
    (∀ x ∈ ids, ∀ y ∈ ids, ¬ (dials ids degree x y = true ∧ dials ids degree y x = true)) ∧
    ∀ x ∈ ids, (neighbours ids meshDegree x).length ≤ meshMaxConns ∧
      ∀ (conns : List α) (peer : α), conns.Nodup → (∀ p ∈ conns, p ∈ neighbours ids meshDegree x) →
        peer ∈ neighbours ids meshDegree x → peer ∉ conns → conns.length < meshMaxConns := by
  refine ⟨fun x hx => select_spec hsorted hdegree hx, meshGraph_preconnected hsorted hdegree, ?_, fun x hx => ⟨?_, ?_⟩⟩
  · rintro x hx y hy ⟨hxy, hyx⟩
    exact lt_asymm (dials_lt hsorted hdegree hx hy hxy) (dials_lt hsorted hdegree hy hx hyx)
  · exact (length_neighbours_le hsorted hx).trans (by decide)
  · exact fun conns peer hconns hsub hpeer hnew => room_for_edge hsorted hx hconns hsub hpeer hnew

end Topology

/-- Five nodes, each of which dials two. -/
theorem dial_topology_five :
    selectDialTargets 20 [10, 20, 30, 40, 50] 2 = some [30, 40] ∧ (meshGraph [10, 20, 30, 40, 50] 2).Preconnected := by
  have h := dial_topology [10, 20, 30, 40, 50] 2 (by decide) (by decide)
  exact ⟨by decide, h.2.1⟩

end MeshTopology

end Alphanumeric
