/-
# Depth-first enumeration of the paths of a forest

A search with an explicit stack over a `children` function: pop a path, and either
record it (it is `maxDepth` long, or its end has no child) or push its extensions by
each child, first child on top. A budget bounds the paths recorded and waiting.
When the forest has fewer paths than the budget, the search is the plain recursive
enumeration `allPaths`, in the same order.

Key definitions: `Paths.loop`, `Paths.enumerate`, `Paths.allPaths`.
Key theorems: `Paths.loop_induct`, `Paths.enumerate_eq_allPaths`, `Paths.mem_allPaths`,
`Paths.enumerate_single`.
-/
import Mathlib.Algebra.BigOperators.Group.List.Basic
import Mathlib.Data.List.Chain
import Mathlib.Tactic

namespace Paths

variable {α : Type} (children : α → List α) (maxDepth maxBranches : ℕ)

/-- The search loop, one unit of fuel a pop. The stack's top is its head. -/
def loop : ℕ → List (List α) → List (List α) → List (List α)
  | 0, complete, _ => complete
  | _ + 1, complete, [] => complete
  | fuel + 1, complete, path :: stack =>
    match path.getLast? with
    | none => loop fuel complete stack
    | some current =>
      if maxDepth ≤ path.length then loop fuel (complete ++ [path]) stack
      else
        match children current with
        | [] => loop fuel (complete ++ [path]) stack
        | cs =>
          let remainingSlots := maxBranches - (complete.length + stack.length)
          if remainingSlots = 0 then complete ++ [path]
          else loop fuel complete ((cs.take remainingSlots).map (fun c => path ++ [c]) ++ stack)

/-- Enough pops for every search within the budget: `maxBranches` paths, each pushed once
for every length it passes through. -/
def searchFuel : ℕ := (maxBranches + 1) * (maxDepth + 1)

def enumerate (start : α) : List (List α) :=
  loop children maxDepth maxBranches (searchFuel maxDepth maxBranches) [] [[start]]

variable {children maxDepth maxBranches}

/-- The induction rule of the search: a property of the first path that extension by a
child keeps holds of every path returned. -/
theorem loop_induct {P : List α → Prop}
    (hchild : ∀ path current c, P path → path.getLast? = some current → c ∈ children current →
      P (path ++ [c])) :
    ∀ (fuel : ℕ) (complete stack : List (List α)), (∀ p ∈ complete, P p) → (∀ p ∈ stack, P p) →
      ∀ p ∈ loop children maxDepth maxBranches fuel complete stack, P p
  | 0, complete, _, hc, _ => by simpa [loop] using hc
  | fuel + 1, complete, [], hc, _ => by simpa [loop] using hc
  | fuel + 1, complete, path :: stack, hc, hs => by
    have hpath := hs path (by simp)
    have hstack : ∀ p ∈ stack, P p := fun p hp => hs p (by simp [hp])
    have hdone : ∀ p ∈ complete ++ [path], P p := by
      intro p hp
      rcases List.mem_append.mp hp with h | h
      · exact hc p h
      · simpa [List.mem_singleton.mp h] using hpath
    unfold loop
    split
    · exact loop_induct hchild fuel _ _ hc hstack
    · rename_i current hlast
      split
      · exact loop_induct hchild fuel _ _ hdone hstack
      · split
        · exact loop_induct hchild fuel _ _ hdone hstack
        · dsimp only
          split
          · exact hdone
          · refine loop_induct hchild fuel _ _ hc fun p hp => ?_
            rcases List.mem_append.mp hp with h | h
            · obtain ⟨c, hmem, rfl⟩ := List.mem_map.mp h
              exact hchild _ _ _ hpath hlast (List.mem_of_mem_take hmem)
            · exact hstack p h

/-! ### The search is complete within its budget -/

variable (children) in
/-- Every path from `a` that ends without a child, or after `d` more steps. -/
def allPaths : ℕ → α → List (List α)
  | 0, a => [[a]]
  | d + 1, a =>
    match children a with
    | [] => [[a]]
    | c :: cs => ((c :: cs).flatMap (allPaths d)).map (a :: ·)

variable (children) in
/-- The nodes of the tree below `a`, `d` levels deep: the pops the search needs for it. -/
def treeSize : ℕ → α → ℕ
  | 0, _ => 1
  | d + 1, a => 1 + ((children a).map (treeSize d)).sum

theorem allPaths_length_pos : ∀ (d : ℕ) (a : α), 0 < (allPaths children d a).length
  | 0, a => by simp [allPaths]
  | d + 1, a => by
    unfold allPaths
    split
    · simp
    · simp only [List.length_map, List.flatMap_cons, List.length_append]
      exact Nat.add_pos_left (allPaths_length_pos d _) _

theorem length_le_flatMap {β : Type} (f : β → List (List α)) :
    ∀ bs : List β, (∀ b ∈ bs, 0 < (f b).length) → bs.length ≤ (bs.flatMap f).length
  | [], _ => by simp
  | b :: bs, h => by
    have hrest := length_le_flatMap f bs fun x hx => h x (by simp [hx])
    have hb := h b (by simp)
    simp only [List.length_cons, List.flatMap_cons, List.length_append]
    omega

/-- A tree with `n` paths of at most `d + 1` nodes has at most `n * (d + 1)` nodes. -/
theorem treeSize_le : ∀ (d : ℕ) (a : α),
    treeSize children d a ≤ (allPaths children d a).length * (d + 1)
  | 0, a => by simp [treeSize, allPaths]
  | d + 1, a => by
    have hsum : ∀ cs : List α, (cs.map (treeSize children d)).sum ≤
        (cs.flatMap (allPaths children d)).length * (d + 1) := by
      intro cs
      induction cs with
      | nil => simp
      | cons c cs ih =>
        have := treeSize_le d c
        simp only [List.map_cons, List.sum_cons, List.flatMap_cons, List.length_append, Nat.add_mul]
        omega
    unfold treeSize allPaths
    split
    · rename_i h
      simp [h]
    · rename_i c cs h
      have hle := hsum (c :: cs)
      have hpos : 0 < ((c :: cs).flatMap (allPaths children d)).length := by
        simp only [List.flatMap_cons, List.length_append]
        exact Nat.add_pos_left (allPaths_length_pos d c) _
      rw [h, List.length_map]
      calc 1 + ((c :: cs).map (treeSize children d)).sum
          ≤ ((c :: cs).flatMap (allPaths children d)).length +
            ((c :: cs).flatMap (allPaths children d)).length * (d + 1) := by omega
        _ = ((c :: cs).flatMap (allPaths children d)).length * (d + 1 + 1) := by ring

variable (children maxDepth) in
/-- The complete paths that a waiting path stands for. -/
def extensions (path : List α) : List (List α) :=
  match path.getLast? with
  | none => []
  | some a => (allPaths children (maxDepth - path.length) a).map (path.dropLast ++ ·)

variable (children maxDepth) in
/-- The pops that a waiting path still costs. -/
def pending (path : List α) : ℕ :=
  match path.getLast? with
  | none => 1
  | some a => treeSize children (maxDepth - path.length) a

theorem pending_pos (path : List α) : 0 < pending children maxDepth path := by
  unfold pending
  split
  · exact Nat.one_pos
  · cases maxDepth - path.length <;> simp [treeSize]

theorem sum_map_pos {f : α → ℕ} (hf : ∀ a, 0 < f a) : ∀ {as : List α}, (as.map f).sum = 0 → as = []
  | [], _ => rfl
  | a :: as, h => by
    have := hf a
    simp only [List.map_cons, List.sum_cons] at h
    omega

/-- A waiting path with children stands for what its extensions by each child stand for. -/
theorem extensions_step {path : List α} {a c : α} {cs : List α} (hlast : path.getLast? = some a)
    (hlt : path.length < maxDepth) (hc : children a = c :: cs) :
    extensions children maxDepth path =
      ((c :: cs).map fun x => path ++ [x]).flatMap (extensions children maxDepth) ∧
    pending children maxDepth path =
      1 + (((c :: cs).map fun x => path ++ [x]).map (pending children maxDepth)).sum := by
  obtain ⟨d, hd⟩ : ∃ d, maxDepth - path.length = d + 1 := ⟨maxDepth - path.length - 1, by omega⟩
  have hd' : maxDepth - (path.length + 1) = d := by omega
  have hpath := List.dropLast_append_getLast? a hlast
  constructor
  · have hmap : ∀ q : List α, path.dropLast ++ a :: q = path ++ q := by
      intro q
      rw [← List.singleton_append, ← List.append_assoc, hpath]
    simp only [extensions, hlast, hd, allPaths, hc, List.map_map, List.flatMap_map, Function.comp_def, hmap,
      List.map_flatMap]
    simp [hd']
  · simp only [pending, hlast, hd, treeSize, hc, List.map_map, Function.comp_def]
    simp [hd']

theorem extensions_length_pos {path : List α} (h : path ≠ []) :
    0 < (extensions children maxDepth path).length := by
  simp only [extensions, List.getLast?_eq_some_getLast h, List.length_map]
  exact allPaths_length_pos _ _

/-- Within its budget the loop returns the recorded paths and everything the waiting paths
stand for, in order. -/
theorem loop_eq :
    ∀ (fuel : ℕ) (complete stack : List (List α)),
      (∀ p ∈ stack, p ≠ [] ∧ p.length ≤ maxDepth) →
      complete.length + (stack.flatMap (extensions children maxDepth)).length < maxBranches →
      (stack.map (pending children maxDepth)).sum ≤ fuel →
      loop children maxDepth maxBranches fuel complete stack =
        complete ++ stack.flatMap (extensions children maxDepth)
  | 0, complete, stack, _, _, hfuel => by
    have hnil : stack = [] := sum_map_pos pending_pos (Nat.le_zero.mp hfuel)
    simp [loop, hnil]
  | fuel + 1, complete, [], _, _, _ => by simp [loop]
  | fuel + 1, complete, path :: stack, hp, hb, hfuel => by
    obtain ⟨hne, hlen⟩ := hp path (by simp)
    have hrest : ∀ p ∈ stack, p ≠ [] ∧ p.length ≤ maxDepth := fun p h => hp p (by simp [h])
    obtain ⟨a, hlast⟩ : ∃ a, path.getLast? = some a := ⟨_, List.getLast?_eq_some_getLast hne⟩
    have hpath := List.dropLast_append_getLast? a hlast
    have hpos : 0 < pending children maxDepth path := pending_pos path
    simp only [List.map_cons, List.sum_cons, List.flatMap_cons, List.length_append] at hfuel hb ⊢
    -- a path that is recorded as it is
    have hdone : extensions children maxDepth path = [path] →
        loop children maxDepth maxBranches fuel (complete ++ [path]) stack =
          complete ++ (extensions children maxDepth path ++
            stack.flatMap (extensions children maxDepth)) := by
      intro hext
      rw [hext, List.length_singleton] at hb
      rw [loop_eq fuel _ _ hrest (by simpa [Nat.add_assoc] using hb) (by omega), hext]
      simp
    unfold loop
    simp only [hlast]
    by_cases hdepth : maxDepth ≤ path.length
    · rw [if_pos hdepth]
      refine hdone ?_
      have hzero : maxDepth - path.length = 0 := by omega
      simp [extensions, hlast, hzero, allPaths, hpath]
    · rw [if_neg hdepth]
      cases hc : children a with
      | nil =>
        refine hdone ?_
        obtain ⟨d, hd⟩ : ∃ d, maxDepth - path.length = d + 1 := ⟨maxDepth - path.length - 1, by omega⟩
        simp [extensions, hlast, hd, allPaths, hc, hpath]
      | cons c cs =>
        obtain ⟨hext, hpend⟩ := extensions_step hlast (not_le.mp hdepth) hc
        set next := (c :: cs).map fun x => path ++ [x] with hnext
        have hne' : ∀ p ∈ next ++ stack, p ≠ [] ∧ p.length ≤ maxDepth := by
          intro p hmem
          rcases List.mem_append.mp hmem with h | h
          · obtain ⟨x, -, rfl⟩ := List.mem_map.mp h
            simp only [List.length_append, List.length_singleton]
            exact ⟨by simp, by omega⟩
          · exact hrest p h
        -- every waiting path stands for at least one path, so all children fit in the budget
        have hcount := length_le_flatMap (extensions children maxDepth) (next ++ stack)
          fun p hmem => extensions_length_pos (hne' p hmem).1
        rw [List.flatMap_append, List.length_append, List.length_append, ← hext] at hcount
        have hlen' : next.length = (c :: cs).length := by rw [hnext, List.length_map]
        have hslots : (c :: cs).length ≤ maxBranches - (complete.length + stack.length) := by omega
        have hnonzero : maxBranches - (complete.length + stack.length) ≠ 0 := by
          simp only [List.length_cons] at hslots
          omega
        dsimp only
        rw [if_neg hnonzero, List.take_of_length_le hslots, ← hnext,
          loop_eq fuel complete (next ++ stack) hne']
        · rw [List.flatMap_append, hext]
        · rw [List.flatMap_append, List.length_append, ← hext]
          exact hb
        · rw [List.map_append, List.sum_append]
          omega

/-- **The search is complete**: with fewer paths than the budget it returns all of them. -/
theorem enumerate_eq_allPaths {start : α} (hdepth : 0 < maxDepth)
    (hb : (allPaths children (maxDepth - 1) start).length < maxBranches) :
    enumerate children maxDepth maxBranches start = allPaths children (maxDepth - 1) start := by
  have hext : extensions children maxDepth [start] = allPaths children (maxDepth - 1) start := by
    simp [extensions]
  have hpend : pending children maxDepth [start] = treeSize children (maxDepth - 1) start := rfl
  unfold enumerate
  rw [loop_eq]
  · simp [hext]
  · simpa using Nat.succ_le_of_lt hdepth
  · simpa [hext] using hb
  · have hsize : treeSize children (maxDepth - 1) start ≤ _ := treeSize_le (maxDepth - 1) start
    rw [Nat.sub_add_cancel hdepth] at hsize
    simp only [List.map_cons, List.map_nil, List.sum_cons, List.sum_nil, hpend, searchFuel]
    calc treeSize children (maxDepth - 1) start + 0
        ≤ (allPaths children (maxDepth - 1) start).length * maxDepth := by omega
      _ ≤ (maxBranches + 1) * (maxDepth + 1) := Nat.mul_le_mul (by omega) (by omega)

/-- Every path that ends without a child is among them, if it is short enough. -/
theorem mem_allPaths :
    ∀ {path : List α} {a last : α} (d : ℕ), path.head? = some a →
      path.IsChain (fun x y => y ∈ children x) → path.getLast? = some last → children last = [] →
      path.length ≤ d + 1 → path ∈ allPaths children d a
  | [], a, last, d, hhead, _, _, _, _ => by simp at hhead
  | [x], a, last, d, hhead, _, hlast, hleaf, _ => by
    obtain rfl : x = a := by simpa using hhead
    obtain rfl : x = last := by simpa using hlast
    cases d with
    | zero => simp [allPaths]
    | succ d => simp [allPaths, hleaf]
  | x :: y :: rest, a, last, d, hhead, hchain, hlast, hleaf, hlen => by
    obtain rfl : x = a := by simpa using hhead
    rw [List.isChain_cons_cons] at hchain
    cases d with
    | zero => simp at hlen
    | succ d =>
      have ih : y :: rest ∈ allPaths children d y :=
        mem_allPaths d rfl hchain.2 (by simpa using hlast) hleaf (by simpa using hlen)
      cases hc : children x with
      | nil => simp [hc] at hchain
      | cons c cs =>
        simp only [allPaths, hc, List.mem_map, List.mem_flatMap]
        exact ⟨y :: rest, ⟨y, hc ▸ hchain.1, ih⟩, rfl⟩

/-- A path of the enumeration that is not cut by the depth ends without a child. -/
theorem leaf_of_mem_allPaths :
    ∀ {path : List α} {a : α} (d : ℕ), path ∈ allPaths children d a → path.length < d + 1 →
      ∃ last, path.getLast? = some last ∧ children last = []
  | path, a, 0, hmem, hlen => by
    obtain rfl : path = [a] := by simpa [allPaths] using hmem
    simp at hlen
  | path, a, d + 1, hmem, hlen => by
    cases hc : children a with
    | nil =>
      obtain rfl : path = [a] := by simpa [allPaths, hc] using hmem
      exact ⟨a, rfl, hc⟩
    | cons c cs =>
      simp only [allPaths, hc, List.mem_map, List.mem_flatMap] at hmem
      obtain ⟨rest, ⟨b, -, hrest⟩, rfl⟩ := hmem
      obtain ⟨last, hlast, hleaf⟩ := leaf_of_mem_allPaths d hrest (by simpa using hlen)
      exact ⟨last, by simp [List.getLast?_cons, hlast], hleaf⟩

/-- Where nothing branches there is one path. -/
theorem length_allPaths_single (h : ∀ a, (children a).length ≤ 1) :
    ∀ (d : ℕ) (a : α), (allPaths children d a).length = 1
  | 0, a => rfl
  | d + 1, a => by
    have ha := h a
    unfold allPaths
    cases hc : children a with
    | nil => rfl
    | cons c cs =>
      have hcs : cs = [] := by
        rw [hc] at ha
        exact List.length_eq_zero_iff.mp (by simpa using ha)
      simp [hcs, length_allPaths_single h d c]

theorem length_le_of_mem_allPaths :
    ∀ {path : List α} {a : α} (d : ℕ), path ∈ allPaths children d a → path.length ≤ d + 1
  | path, a, 0, h => by
    obtain rfl : path = [a] := by simpa [allPaths] using h
    simp
  | path, a, d + 1, h => by
    cases hc : children a with
    | nil =>
      obtain rfl : path = [a] := by simpa [allPaths, hc] using h
      simp
    | cons c cs =>
      simp only [allPaths, hc, List.mem_map, List.mem_flatMap] at h
      obtain ⟨rest, ⟨b, -, hrest⟩, rfl⟩ := h
      have := length_le_of_mem_allPaths d hrest
      simpa using this

/-- A search over a forest that never branches returns the one path from its start. -/
theorem enumerate_single {maxDepth maxBranches : ℕ} (h : ∀ a, (children a).length ≤ 1)
    (hdepth : 0 < maxDepth) (hbranches : 1 < maxBranches) (start : α) :
    enumerate children maxDepth maxBranches start = allPaths children (maxDepth - 1) start := by
  apply enumerate_eq_allPaths hdepth
  rw [length_allPaths_single h]
  exact hbranches

end Paths
