/-
# Many searchers, one result

Workers search side by side for a hit. They share a latch, which a worker with a hit sets by
one atomic swap, and a result, which only the worker that found the latch open writes, in
several separate stores. A worker may read the latch while it searches and give up. Nothing
orders the workers: every interleaving of their steps is a run.

At the end either the latch is open, the result is untouched and every worker ran out of
candidates, or it is set and the result is all of one worker's hit (`Rules.finished`).

Key definitions: `Program`, `Step`, `Runs`, `Rules`, `Bounded`.
Key theorems: `Rules.finished`, `Bounded.finishes`.
-/
import Mathlib.Algebra.BigOperators.Group.Finset.Basic
import Mathlib.Algebra.Order.BigOperators.Group.Finset
import Mathlib.Data.Fintype.BigOperators

namespace FirstHit

variable {ι L H P : Type}

/-- What a searching worker does next: it goes on, it has a hit, or it gives up. -/
inductive Move (L H : Type) where
  | next (l : L)
  | hit (h : H)
  | quit

/-- What the workers run. `move i latch l m`: worker `i` at `l` may make the move `m` when it
finds the latch at `latch`. `stores h` are the stores that publish the hit `h`. -/
structure Program (ι L H P : Type) where
  start : ι → L
  move : ι → Bool → L → Move L H → Prop
  stores : H → List (P → P)

inductive Phase (L H P : Type) where
  | searching (l : L)
  | hit (h : H)
  | writing (left : List (P → P))
  | done

def Move.phase : Move L H → Phase L H P
  | .next l => .searching l
  | .hit h => .hit h
  | .quit => .done

structure State (ι L H P : Type) where
  latch : Bool
  payload : P
  phase : ι → Phase L H P

variable [DecidableEq ι]

def State.goto (s : State ι L H P) (i : ι) (ph : Phase L H P) : State ι L H P :=
  { s with phase := Function.update s.phase i ph }

inductive Step (G : Program ι L H P) : State ι L H P → State ι L H P → Prop
  | search {s : State ι L H P} {i : ι} {l : L} {m : Move L H} :
    s.phase i = .searching l → G.move i s.latch l m → Step G s (s.goto i m.phase)
  | claim {s : State ι L H P} {i : ι} {h : H} :
    s.phase i = .hit h → s.latch = false →
      Step G s ({ s with latch := true }.goto i (.writing (G.stores h)))
  | late {s : State ι L H P} {i : ι} {h : H} :
    s.phase i = .hit h → s.latch = true → Step G s (s.goto i .done)
  | store {s : State ι L H P} {i : ι} {w : P → P} {left : List (P → P)} :
    s.phase i = .writing (w :: left) → Step G s ({ s with payload := w s.payload }.goto i (.writing left))
  | leave {s : State ι L H P} {i : ι} : s.phase i = .writing [] → Step G s (s.goto i .done)

def Runs (G : Program ι L H P) : State ι L H P → State ι L H P → Prop := Relation.ReflTransGen (Step G)

def Program.initial (G : Program ι L H P) (p : P) : State ι L H P := ⟨false, p, fun i => .searching (G.start i)⟩

def State.Finished (s : State ι L H P) : Prop := ∀ i, s.phase i = .done

@[simp] theorem goto_latch (s : State ι L H P) (i : ι) (ph : Phase L H P) : (s.goto i ph).latch = s.latch := rfl

@[simp] theorem goto_same (s : State ι L H P) (i : ι) (ph : Phase L H P) : (s.goto i ph).phase i = ph :=
  Function.update_self ..

theorem goto_other (s : State ι L H P) {i j : ι} (ph : Phase L H P) (h : j ≠ i) :
    (s.goto i ph).phase j = s.phase j := Function.update_of_ne h ..

/-! ### What the result says at the end -/

/-- The stores `ws`, in order. -/
def stored (ws : List (P → P)) (p : P) : P := ws.foldl (fun p w => w p) p

/-- What one worker keeps by itself: `Inv` while it searches, `Good` of a hit, and `Over` once it
gave up with the latch open. -/
structure Rules (G : Program ι L H P) (Inv : ι → L → Prop) (Good : ι → H → Prop) (Over : ι → Prop) : Prop where
  start : ∀ i, Inv i (G.start i)
  next : ∀ {i latch l l'}, Inv i l → G.move i latch l (.next l') → Inv i l'
  hit : ∀ {i latch l h}, Inv i l → G.move i latch l (.hit h) → Good i h
  quit : ∀ {i l}, Inv i l → G.move i false l .quit → Over i

variable {G : Program ι L H P} {Inv : ι → L → Prop} {Good : ι → H → Prop} {Over : ι → Prop}

/-- Worker `i` won with `h`: what it still stores completes the result, and nobody else stores. -/
structure Won (G : Program ι L H P) (p : P) (s : State ι L H P) (i : ι) (h : H) (left : List (P → P)) : Prop where
  phase : s.phase i = .writing left ∨ s.phase i = .done ∧ left = []
  payload : stored left s.payload = stored (G.stores h) p
  alone : ∀ j, j ≠ i → ∀ ws, s.phase j ≠ .writing ws

structure Ok (G : Program ι L H P) (Inv : ι → L → Prop) (Good : ι → H → Prop) (Over : ι → Prop) (p : P)
    (s : State ι L H P) : Prop where
  inv : ∀ i l, s.phase i = .searching l → Inv i l
  good : ∀ i h, s.phase i = .hit h → Good i h
  done : ∀ i, s.phase i = .done → s.latch = true ∨ Over i
  opened : s.latch = false → s.payload = p ∧ ∀ i ws, s.phase i ≠ .writing ws
  claimed : s.latch = true → ∃ i h left, Good i h ∧ Won G p s i h left

omit [DecidableEq ι] in
theorem Ok.initial (hG : Rules G Inv Good Over) (p : P) : Ok G Inv Good Over p (G.initial p) where
  inv i l h := by
    cases h
    exact hG.start i
  good _ _ h := by cases h
  done _ h := by cases h
  opened _ := ⟨rfl, fun _ _ h => by cases h⟩
  claimed h := by cases h

/-- One worker moves to a phase it may be in; the latch and the result stay, and it was not
writing. -/
theorem Ok.goto {p : P} {s : State ι L H P} {i : ι} {ph : Phase L H P} (hs : Ok G Inv Good Over p s)
    (hwas : ∀ ws, s.phase i ≠ .writing ws) (hnot : s.phase i ≠ .done)
    (hinv : ∀ l, ph = .searching l → Inv i l) (hgood : ∀ h, ph = .hit h → Good i h)
    (hdone : ph = .done → s.latch = true ∨ Over i) (hwrite : ∀ ws, ph ≠ .writing ws) :
    Ok G Inv Good Over p (s.goto i ph) := by
  have hphase : ∀ j ph', (s.goto i ph).phase j = ph' → j = i ∧ ph = ph' ∨ j ≠ i ∧ s.phase j = ph' := by
    intro j ph' h
    by_cases hj : j = i
    · exact .inl ⟨hj, by rw [← h, hj, goto_same]⟩
    · exact .inr ⟨hj, by rw [← h, goto_other s ph hj]⟩
  refine ⟨fun j l h => ?_, fun j h' h => ?_, fun j h => ?_, fun h => ⟨(hs.opened h).1, fun j ws hw => ?_⟩,
    fun h => ?_⟩
  · rcases hphase j _ h with ⟨rfl, hph⟩ | ⟨-, hph⟩
    · exact hinv l hph
    · exact hs.inv j l hph
  · rcases hphase j _ h with ⟨rfl, hph⟩ | ⟨-, hph⟩
    · exact hgood h' hph
    · exact hs.good j h' hph
  · rcases hphase j _ h with ⟨rfl, hph⟩ | ⟨-, hph⟩
    · exact hdone hph
    · exact hs.done j hph
  · rcases hphase j _ hw with ⟨rfl, hph⟩ | ⟨-, hph⟩
    · exact hwrite ws hph
    · exact (hs.opened h).2 j ws hph
  · obtain ⟨w, hit, left, hit_good, hw⟩ := hs.claimed h
    -- the winner is writing or done, so it is not the worker that moved
    have hne : w ≠ i := by
      rintro rfl
      rcases hw.phase with hp | ⟨hp, -⟩
      · exact hwas left hp
      · exact hnot hp
    refine ⟨w, hit, left, hit_good, ?_, hw.payload, fun j hj ws hjw => ?_⟩
    · rw [goto_other s ph hne]
      exact hw.phase
    · rcases hphase j _ hjw with ⟨rfl, hph⟩ | ⟨-, hph⟩
      · exact hwrite ws hph
      · exact hw.alone j hj ws hph

/-- The worker with the latch writes on: the winner is the one worker that can be writing. -/
theorem Ok.writes {p : P} {s : State ι L H P} {i : ι} {ws : List (P → P)} (hs : Ok G Inv Good Over p s)
    (hi : s.phase i = .writing ws) : s.latch = true ∧ ∃ h, Good i h ∧ Won G p s i h ws := by
  cases hlatch : s.latch with
  | false => exact absurd hi ((hs.opened hlatch).2 i ws)
  | true =>
    obtain ⟨w, h, left, hgood, hw⟩ := hs.claimed hlatch
    obtain rfl : i = w := by
      by_contra hne
      exact hw.alone i hne ws hi
    rcases hw.phase with hp | ⟨hp, -⟩
    · obtain rfl : ws = left := by simpa [hp] using hi.symm
      exact ⟨rfl, h, hgood, hw⟩
    · simp [hp] at hi

/-- The winner moves on: to its next store, or out after the last. `s'` is `s` with the latch set
and the store done. -/
theorem Ok.publish {p : P} {s s' : State ι L H P} {i : ι} {h : H} {left : List (P → P)} {ph : Phase L H P}
    (hs : Ok G Inv Good Over p s) (hlatch : s'.latch = true) (hphase : s'.phase = s.phase) (hgood : Good i h)
    (halone : ∀ j, j ≠ i → ∀ ws, s.phase j ≠ .writing ws) (hph : ph = .writing left ∨ ph = .done ∧ left = [])
    (hstored : stored left s'.payload = stored (G.stores h) p) : Ok G Inv Good Over p (s'.goto i ph) := by
  have hother : ∀ j ph', j ≠ i → (s'.goto i ph).phase j = ph' → s.phase j = ph' :=
    fun j ph' hj h => by rw [← h, goto_other _ _ hj, hphase]
  refine ⟨fun j l hl => ?_, fun j h₁ hh => ?_, fun j _ => .inl hlatch, fun hopen => ?_,
    fun _ => ⟨i, h, left, hgood, by rwa [goto_same], hstored, fun j hj ws hw =>
      halone j hj ws (hother j _ hj hw)⟩⟩
  · by_cases hj : j = i
    · subst hj
      rw [goto_same] at hl
      simp [hl] at hph
    · exact hs.inv j l (hother j _ hj hl)
  · by_cases hj : j = i
    · subst hj
      rw [goto_same] at hh
      simp [hh] at hph
    · exact hs.good j h₁ (hother j _ hj hh)
  · rw [goto_latch, hlatch] at hopen
    cases hopen

theorem Ok.step (hG : Rules G Inv Good Over) {p : P} {s t : State ι L H P} (hs : Ok G Inv Good Over p s)
    (h : Step G s t) : Ok G Inv Good Over p t := by
  cases h with
  | @search i l m hl hm =>
    have hwas := hs.inv i l hl
    cases m with
    | next l' =>
      exact hs.goto (by simp [hl]) (by simp [hl]) (fun l₁ h => by cases h; exact hG.next hwas hm)
        (fun _ h => by cases h) (fun h => by cases h) (fun _ h => by cases h)
    | hit h' =>
      exact hs.goto (by simp [hl]) (by simp [hl]) (fun _ h => by cases h)
        (fun h₁ h => by cases h; exact hG.hit hwas hm) (fun h => by cases h) (fun _ h => by cases h)
    | quit =>
      refine hs.goto (by simp [hl]) (by simp [hl]) (fun _ h => by cases h) (fun _ h => by cases h)
        (fun _ => ?_) (fun _ h => by cases h)
      cases hlatch : s.latch with
      | true => exact .inl rfl
      | false => exact .inr (hG.quit hwas (hlatch ▸ hm))
  | @late i h' hh hlatch =>
    exact hs.goto (by simp [hh]) (by simp [hh]) (fun _ h => by cases h) (fun _ h => by cases h)
      (fun _ => .inl hlatch) (fun _ h => by cases h)
  | @claim i h' hh hlatch =>
    obtain ⟨hp, hfree⟩ := hs.opened hlatch
    exact hs.publish rfl rfl (hs.good i h' hh) (fun j _ => hfree j) (.inl rfl) (by rw [hp])
  | @store i w left hw =>
    obtain ⟨hlatch, h', hgood, hwon⟩ := hs.writes hw
    exact hs.publish hlatch rfl hgood hwon.alone (.inl rfl) hwon.payload
  | @leave i hw =>
    obtain ⟨hlatch, h', hgood, hwon⟩ := hs.writes hw
    exact hs.publish hlatch rfl hgood hwon.alone (.inr ⟨rfl, rfl⟩) hwon.payload

/-- **The result of a finished run.** -/
theorem Rules.finished (hG : Rules G Inv Good Over) {p : P} {s : State ι L H P} (h : Runs G (G.initial p) s)
    (hdone : s.Finished) :
    s.latch = false ∧ s.payload = p ∧ (∀ i, Over i) ∨
      s.latch = true ∧ ∃ i h, Good i h ∧ s.payload = stored (G.stores h) p := by
  have hs : Ok G Inv Good Over p s := by
    clear hdone
    induction h with
    | refl => exact .initial hG p
    | tail _ hstep ih => exact ih.step hG hstep
  cases hlatch : s.latch with
  | false =>
    refine .inl ⟨rfl, (hs.opened hlatch).1, fun i => ?_⟩
    simpa [hlatch] using hs.done i (hdone i)
  | true =>
    obtain ⟨i, h', left, hgood, hwon⟩ := hs.claimed hlatch
    have hleft : left = [] := by simpa [hdone i] using hwon.phase
    refine .inr ⟨rfl, i, h', hgood, ?_⟩
    simpa [hleft, stored] using hwon.payload

/-! ### Every search ends -/

/-- A worker's moves lower its `rank`, and it always has one. -/
structure Bounded (G : Program ι L H P) (rank : ι → L → ℕ) (most : ℕ) : Prop where
  next : ∀ {i latch l l'}, G.move i latch l (.next l') → rank i l' < rank i l
  moves : ∀ i latch l, ∃ m, G.move i latch l m
  stores : ∀ h, (G.stores h).length ≤ most

def phaseRank (rank : ι → L → ℕ) (most : ℕ) (i : ι) : Phase L H P → ℕ
  | .searching l => rank i l + most + 3
  | .hit _ => most + 2
  | .writing left => left.length + 1
  | .done => 0

theorem sum_goto_lt [Fintype ι] (rank : ι → L → ℕ) (most : ℕ) (s : State ι L H P) {i : ι} {ph : Phase L H P}
    (h : phaseRank rank most i ph < phaseRank rank most i (s.phase i)) :
    ∑ j, phaseRank rank most j ((s.goto i ph).phase j) < ∑ j, phaseRank rank most j (s.phase j) := by
  refine Finset.sum_lt_sum (fun j _ => ?_) ⟨i, Finset.mem_univ i, by rwa [goto_same]⟩
  by_cases hj : j = i
  · subst hj
    rw [goto_same]
    exact h.le
  · rw [goto_other s ph hj]

/-- **Every state leads to a finished one**, whatever was done before. -/
theorem Bounded.finishes [Fintype ι] {rank : ι → L → ℕ} {most : ℕ} (hG : Bounded G rank most)
    (s : State ι L H P) : ∃ t, Runs G s t ∧ t.Finished := by
  induction hn : ∑ j, phaseRank rank most j (s.phase j) using Nat.strong_induction_on generalizing s with
  | _ n ih =>
    by_cases hdone : s.Finished
    · exact ⟨s, .refl, hdone⟩
    obtain ⟨i, hi⟩ := not_forall.mp hdone
    have hnext : ∃ t, Step G s t ∧
        ∑ j, phaseRank rank most j (t.phase j) < ∑ j, phaseRank rank most j (s.phase j) := by
      cases hph : s.phase i with
      | searching l =>
        obtain ⟨m, hm⟩ := hG.moves i s.latch l
        refine ⟨_, .search hph hm, sum_goto_lt rank most s ?_⟩
        rw [hph]
        cases m with
        | next l' => have := hG.next hm; simp only [Move.phase, phaseRank]; omega
        | hit h => simp only [Move.phase, phaseRank]; omega
        | quit => simp only [Move.phase, phaseRank]; omega
      | hit h =>
        have hlen := hG.stores h
        cases hlatch : s.latch with
        | false =>
          refine ⟨_, .claim hph hlatch, sum_goto_lt rank most { s with latch := true } ?_⟩
          simp only [hph, phaseRank]
          omega
        | true =>
          refine ⟨_, .late hph hlatch, sum_goto_lt rank most s ?_⟩
          simp [hph, phaseRank]
      | writing left =>
        cases left with
        | nil =>
          refine ⟨_, .leave hph, sum_goto_lt rank most s ?_⟩
          simp [hph, phaseRank]
        | cons w left =>
          refine ⟨_, .store hph, sum_goto_lt rank most { s with payload := w s.payload } ?_⟩
          simp [hph, phaseRank]
      | done => exact absurd hph hi
    obtain ⟨t, hstep, hlt⟩ := hnext
    obtain ⟨u, hrun, hu⟩ := ih _ (hn ▸ hlt) t rfl
    exact ⟨u, .head hstep hrun, hu⟩

end FirstHit
