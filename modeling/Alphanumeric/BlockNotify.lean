/-
# The command run on every new tip

`blocknotify` runs the operator's command when the tip changes. The tips come over a watch
channel, which drops all but the last, and the loop waits for one command to end before it
looks again. However fast the tips come and however slow the command is, at most one command
runs at a time, the tips handed over are tips of the chain in their order, and when the loop
goes back to sleep the newest tip has been handed over.

`expand` puts the hash and the height into the command's arguments. Every argument is a row of
plain characters and escapes, with perhaps a percent sign left over at its end, and is expanded
piece by piece.

Key definitions: `expand`, `Piece`, `argvFor`, `Notifier`, `Notifier.step`, `Notifier.debt`, `Coalesced`.
Key theorems: `pieces_of`, `expand_pieces`, `debt_run`, `hook_coalesces`.
-/
import Alphanumeric.Types
import Alphanumeric.Lib.Trace
import Alphanumeric.Lib.Watch
import Mathlib

namespace Alphanumeric

namespace BlockNotify

open Watch

/-! ### The command's arguments -/

def expand (hashHex heightText : Text) : Text → Text
  | [] => []
  | c :: rest =>
    if c ≠ '%' then c :: expand hashHex heightText rest
    else
      match rest with
      | [] => ['%']
      | other :: rest =>
        if other = 's' then hashHex ++ expand hashHex heightText rest
        else if other = 'h' then heightText ++ expand hashHex heightText rest
        else if other = '%' then '%' :: expand hashHex heightText rest
        else '%' :: other :: expand hashHex heightText rest

/-- What an argument is made of. -/
inductive Piece where
  | plain (c : Char) (h : c ≠ '%')
  | hash
  | height
  | percent
  | unknown (c : Char) (h : c ≠ 's' ∧ c ≠ 'h' ∧ c ≠ '%')

namespace Piece

def text : Piece → Text
  | plain c _ => [c]
  | hash => ['%', 's']
  | height => ['%', 'h']
  | percent => ['%', '%']
  | unknown c _ => ['%', c]

/-- What stands in its place after the expansion. -/
def expanded (hashHex heightText : Text) : Piece → Text
  | plain c _ => [c]
  | hash => hashHex
  | height => heightText
  | percent => ['%']
  | unknown c _ => ['%', c]

end Piece

/-- Every argument is made of pieces, and at most one percent sign at the end. -/
theorem pieces_of : ∀ arg : Text, ∃ (ps : List Piece) (tail : Text),
    (tail = [] ∨ tail = ['%']) ∧ arg = ps.flatMap Piece.text ++ tail
  | [] => ⟨[], [], .inl rfl, rfl⟩
  | ['%'] => ⟨[], ['%'], .inr rfl, rfl⟩
  | [c] => by
    by_cases hc : c = '%'
    · exact ⟨[], ['%'], .inr rfl, by rw [hc]; rfl⟩
    · exact ⟨[.plain c hc], [], .inl rfl, rfl⟩
  | c :: d :: rest => by
    by_cases hc : c = '%'
    · obtain ⟨ps, tail, htail, hrest⟩ := pieces_of rest
      have hpiece : ∃ p : Piece, p.text = ['%', d] := by
        by_cases hs : d = 's'
        · exact ⟨.hash, by rw [hs]; rfl⟩
        · by_cases hh : d = 'h'
          · exact ⟨.height, by rw [hh]; rfl⟩
          · by_cases hp : d = '%'
            · exact ⟨.percent, by rw [hp]; rfl⟩
            · exact ⟨.unknown d ⟨hs, hh, hp⟩, rfl⟩
      obtain ⟨p, hp⟩ := hpiece
      exact ⟨p :: ps, tail, htail, by rw [List.flatMap_cons, hp, hc, hrest]; rfl⟩
    · obtain ⟨ps, tail, htail, hrest⟩ := pieces_of (d :: rest)
      exact ⟨.plain c hc :: ps, tail, htail, by rw [hrest]; rfl⟩

theorem expand_piece (hashHex heightText : Text) (p : Piece) (rest : Text) :
    expand hashHex heightText (p.text ++ rest) = p.expanded hashHex heightText ++ expand hashHex heightText rest := by
  cases p with
  | plain c h =>
    rw [Piece.text, List.singleton_append, expand.eq_def]
    exact if_pos h
  | hash => simp [Piece.text, Piece.expanded, expand]
  | height => simp [Piece.text, Piece.expanded, expand]
  | percent => simp [Piece.text, Piece.expanded, expand]
  | unknown c h => simp [Piece.text, Piece.expanded, expand, h.1, h.2.1, h.2.2]

/-- **The expansion goes piece by piece.** -/
theorem expand_pieces (hashHex heightText : Text) {tail : Text} (htail : tail = [] ∨ tail = ['%']) :
    ∀ ps : List Piece, expand hashHex heightText (ps.flatMap Piece.text ++ tail) =
      ps.flatMap (Piece.expanded hashHex heightText) ++ tail
  | [] => by rcases htail with rfl | rfl <;> rfl
  | p :: ps => by
    rw [List.flatMap_cons, List.append_assoc, expand_piece, expand_pieces hashHex heightText htail ps,
      List.flatMap_cons, List.append_assoc]

/-! ### The loop -/

structure ChainTipSignal where
  height : ℕ
  hash : Hash
  version : ℕ

/-- The program and its argument templates. -/
structure Command where
  program : Text
  args : List Text

def argvFor (cmd : Command) (tip : ChainTipSignal) : List Text :=
  cmd.program :: cmd.args.map (expand (hexEncode tip.hash.bytes) (Nat.toDigits 10 tip.height))

/-- Where the loop stands: in `changed`, between `changed` and `borrow_and_update`, or in `fire`
with the command running. -/
inductive Phase where
  | waiting
  | woken
  | running
deriving DecidableEq

/-- `children` counts the live commands and `fired` keeps the commands started or tried, each with
the version of its tip. -/
structure Notifier where
  chan : Channel ChainTipSignal
  seen : ℕ
  phase : Phase
  children : ℕ
  fired : List (ℕ × List Text)

/-- A tip is sent at any time; the rest is the loop. `fire` may fail to start the command, and
`finish` is its exit or its kill at the timeout. -/
inductive Event where
  | tip (t : ChainTipSignal)
  | wake
  | fire (started : Bool)
  | finish

/-- The steps of the loop itself. -/
def Event.own : Event → Bool
  | .tip _ => false
  | _ => true

def Notifier.step (cmd : Command) (s : Notifier) (e : Event) : Option Notifier :=
  match e with
  | .tip t => some { s with chan := s.chan.send t }
  | .wake =>
    if s.phase = .waiting ∧ s.chan.changed s.seen = true then
      some { s with phase := .woken, seen := s.chan.version }
    else none
  | .fire started =>
    if s.phase = .woken then
      some
        { s with
          seen := s.chan.version
          fired := s.fired ++ [(s.chan.version, argvFor cmd s.chan.value)]
          phase := if started then .running else .waiting
          children := if started then s.children + 1 else s.children }
    else none
  | .finish => if s.phase = .running then some { s with phase := .waiting, children := s.children - 1 } else none

abbrev Steps (cmd : Command) (s : Notifier) (e : Event) (t : Notifier) : Prop := s.step cmd e = some t

/-- `subscribe` marks the current tip as seen. -/
def Notifier.start (tip : ChainTipSignal) : Notifier := ⟨⟨tip, []⟩, 0, .waiting, 0, []⟩

/-- The version of the last tip handed over. -/
def Notifier.lastFired (s : Notifier) : ℕ := (s.fired.getLast?.map (·.1)).getD 0

/-! ### What the loop keeps -/

structure NotifierOk (cmd : Command) (s : Notifier) : Prop where
  children : s.children = if s.phase = .running then 1 else 0
  ordered : (s.fired.map (·.1)).Pairwise (· < ·)
  argv : ∀ f ∈ s.fired, f.1 ≤ s.chan.version ∧
    ∃ t, s.chan.sent[f.1 - 1]? = some t ∧ f.2 = argvFor cmd t ∧ 0 < f.1
  last : if s.phase = .woken then s.lastFired < s.seen else s.lastFired = s.seen
  seen : s.seen ≤ s.chan.version

theorem le_lastFired {cmd : Command} {s : Notifier} (h : NotifierOk cmd s) {f : ℕ × List Text} (hf : f ∈ s.fired) :
    f.1 ≤ s.lastFired := by
  obtain ⟨rest, last, hlast⟩ := List.eq_nil_or_concat s.fired |>.resolve_left (List.ne_nil_of_mem hf)
  have hord := h.ordered
  rw [List.concat_eq_append] at hlast
  rw [hlast, List.map_append, List.pairwise_append] at hord
  have hval : s.lastFired = last.1 := by simp [Notifier.lastFired, hlast]
  rw [hlast, List.mem_append, List.mem_singleton] at hf
  rcases hf with hf | rfl
  · rw [hval]
    exact (hord.2.2 _ (List.mem_map_of_mem hf) _ (by simp)).le
  · exact hval.ge

theorem NotifierOk.step {cmd : Command} {s t : Notifier} {e : Event} (h : NotifierOk cmd s)
    (hstep : Steps cmd s e t) : NotifierOk cmd t := by
  cases e with
  | tip tip =>
    obtain rfl : { s with chan := s.chan.send tip } = t := by simpa [Steps, Notifier.step] using hstep
    refine ⟨h.children, h.ordered, fun f hf => ?_, h.last, ?_⟩
    · obtain ⟨hle, x, hx, hargv, hpos⟩ := h.argv f hf
      exact ⟨by rw [Channel.version_send]; omega, x, s.chan.send_get tip hx, hargv, hpos⟩
    · have := h.seen
      rw [Channel.version_send]
      exact this.trans (Nat.le_succ _)
  | wake =>
    simp only [Steps, Notifier.step] at hstep
    split at hstep
    · rename_i hwait
      cases hstep
      have hlast := h.last
      have hseen := h.seen
      have hnew : s.seen ≠ s.chan.version := by simpa [Channel.changed] using hwait.2
      rw [if_neg (by rw [hwait.1]; decide)] at hlast
      refine ⟨by simpa [hwait.1] using h.children, h.ordered, h.argv, ?_, le_rfl⟩
      change s.lastFired < s.chan.version
      omega
    · cases hstep
  | fire started =>
    simp only [Steps, Notifier.step] at hstep
    split at hstep
    · rename_i hwoken
      cases hstep
      have hlast := h.last
      have hseen := h.seen
      rw [if_pos hwoken] at hlast
      obtain ⟨v, hv⟩ : ∃ v, s.chan.version = v + 1 := ⟨s.chan.version - 1, by omega⟩
      refine ⟨?_, ?_, fun f hf => ?_, ?_, le_rfl⟩
      · have hnone : s.children = 0 := by simpa [hwoken] using h.children
        cases started <;> simp [hnone]
      · rw [List.map_append, List.pairwise_append]
        refine ⟨h.ordered, List.pairwise_singleton .., fun a ha b hb => ?_⟩
        obtain ⟨f, hf, rfl⟩ := List.mem_map.mp ha
        obtain rfl : b = s.chan.version := by simpa using hb
        have := le_lastFired h hf
        omega
      · rcases List.mem_append.mp hf with hf | hf
        · exact h.argv f hf
        · obtain rfl : f = (s.chan.version, argvFor cmd s.chan.value) := by simpa using hf
          refine ⟨le_rfl, s.chan.value, ?_, rfl, by dsimp only; omega⟩
          dsimp only
          rw [hv]
          exact s.chan.value_of_changed hv
      · have hnot : (if started = true then Phase.running else Phase.waiting) ≠ .woken := by
          cases started <;> decide
        rw [if_neg hnot]
        simp [Notifier.lastFired]
    · cases hstep
  | finish =>
    simp only [Steps, Notifier.step] at hstep
    split at hstep
    · rename_i hrun
      cases hstep
      have hlast := h.last
      rw [if_neg (by rw [hrun]; decide)] at hlast
      have hone : s.children = 1 := by simpa [hrun] using h.children
      exact ⟨by simp [hone], h.ordered, h.argv, hlast, h.seen⟩
    · cases hstep

/-! ### The whole run -/

/-- What the operator may rely on at any moment. `settled`: a loop that sleeps has handed the newest
tip over; `drains`: without further tips it has done so after three steps of its own, whichever they
are, and before, if it can go no further. -/
structure Coalesced (cmd : Command) (s : Notifier) : Prop where
  single : s.children ≤ 1
  ordered : (s.fired.map (·.1)).Pairwise (· < ·)
  real : ∀ f ∈ s.fired, ∃ t, s.chan.sent[f.1 - 1]? = some t ∧ f.2 = argvFor cmd t
  settled : s.phase = .waiting → s.chan.changed s.seen = false → s.lastFired = s.chan.version
  drains : ∀ tr t, Trace.Run (Steps cmd) s tr t → (∀ p ∈ tr, p.2.own = true) →
    3 ≤ tr.length ∨ (∀ e u, e.own = true → ¬ Steps cmd t e u) → t.lastFired = s.chan.version

theorem settled_of_ok {cmd : Command} {s : Notifier} (h : NotifierOk cmd s) (hwait : s.phase = .waiting)
    (hquiet : s.chan.changed s.seen = false) : s.lastFired = s.chan.version := by
  have hlast := h.last
  rw [if_neg (by rw [hwait]; decide)] at hlast
  rw [hlast]
  simpa [Channel.changed] using hquiet

/-- How many steps the loop is away from handing the newest tip over. -/
def Notifier.debt (s : Notifier) : ℕ :=
  if s.lastFired = s.chan.version then 0
  else
    match s.phase with
    | .waiting => 2
    | .woken => 1
    | .running => 3

theorem debt_eq_zero {s : Notifier} : s.debt = 0 ↔ s.lastFired = s.chan.version := by
  unfold Notifier.debt
  split
  · simp [*]
  · cases s.phase <;> simp [*]

theorem debt_le_three (s : Notifier) : s.debt ≤ 3 := by
  unfold Notifier.debt
  split
  · exact Nat.zero_le 3
  · cases s.phase <;> simp

/-- A step of the loop pays one off. -/
theorem debt_step {cmd : Command} {s t : Notifier} {e : Event} (h : NotifierOk cmd s) (hown : e.own = true)
    (hstep : Steps cmd s e t) : t.chan = s.chan ∧ t.debt ≤ s.debt - 1 := by
  cases e with
  | tip tip => cases hown
  | wake =>
    simp only [Steps, Notifier.step] at hstep
    split at hstep
    · rename_i hwait
      cases hstep
      have hlast := h.last
      rw [if_neg (by rw [hwait.1]; decide)] at hlast
      have hnew : s.lastFired ≠ s.chan.version := by simpa [Channel.changed, hlast] using hwait.2
      refine ⟨rfl, ?_⟩
      have hbefore : s.debt = 2 := by rw [Notifier.debt, if_neg hnew, hwait.1]
      have hafter : ({ s with phase := .woken, seen := s.chan.version } : Notifier).debt = 1 := if_neg hnew
      rw [hbefore, hafter]
    · cases hstep
  | fire started =>
    simp only [Steps, Notifier.step] at hstep
    split at hstep
    · cases hstep
      refine ⟨rfl, (debt_eq_zero.mpr ?_).le.trans (Nat.zero_le _)⟩
      simp [Notifier.lastFired]
    · cases hstep
  | finish =>
    simp only [Steps, Notifier.step] at hstep
    split at hstep
    · rename_i hrun
      cases hstep
      refine ⟨rfl, ?_⟩
      by_cases hpaid : s.lastFired = s.chan.version
      · have hafter : ({ s with phase := .waiting, children := s.children - 1 } : Notifier).debt = 0 := if_pos hpaid
        rw [hafter]
        exact Nat.zero_le _
      · have hbefore : s.debt = 3 := by rw [Notifier.debt, if_neg hpaid, hrun]
        have hafter : ({ s with phase := .waiting, children := s.children - 1 } : Notifier).debt = 2 := if_neg hpaid
        rw [hbefore, hafter]
    · cases hstep

/-- A loop with a debt can go on. -/
theorem exists_step {cmd : Command} {s : Notifier} (h : NotifierOk cmd s) (hdebt : s.lastFired ≠ s.chan.version) :
    ∃ e t, e.own = true ∧ Steps cmd s e t := by
  cases hphase : s.phase with
  | waiting =>
    have hnew : s.chan.changed s.seen = true :=
      Bool.eq_true_of_not_eq_false fun hquiet => hdebt (settled_of_ok h hphase hquiet)
    exact ⟨.wake, _, rfl, if_pos ⟨hphase, hnew⟩⟩
  | woken => exact ⟨.fire false, _, rfl, if_pos hphase⟩
  | running => exact ⟨.finish, _, rfl, if_pos hphase⟩

theorem debt_run {cmd : Command} : ∀ {tr : List (Notifier × Event)} {s t : Notifier},
    Trace.Run (Steps cmd) s tr t → NotifierOk cmd s → (∀ p ∈ tr, p.2.own = true) →
    NotifierOk cmd t ∧ t.chan = s.chan ∧ t.debt ≤ s.debt - tr.length
  | _, _, _, .nil _, h, _ => ⟨h, rfl, le_rfl⟩
  | _, _, _, .cons hstep hrun, h, hown => by
    obtain ⟨hchan, hdebt⟩ := debt_step h (hown _ List.mem_cons_self) hstep
    obtain ⟨hok, hchan', hdebt'⟩ := debt_run hrun (h.step hstep) fun p hp => hown p (List.mem_cons_of_mem _ hp)
    refine ⟨hok, hchan'.trans hchan, ?_⟩
    rw [List.length_cons]
    omega

theorem NotifierOk.start (cmd : Command) (tip : ChainTipSignal) : NotifierOk cmd (.start tip) :=
  ⟨rfl, .nil, fun _ hf => absurd hf List.not_mem_nil, rfl, le_rfl⟩

/-- **One command at a time, tips in order, and never left behind.** -/
theorem hook_coalesces {cmd : Command} {tip : ChainTipSignal} {tr : List (Notifier × Event)} {s : Notifier}
    (h : Trace.Run (Steps cmd) (.start tip) tr s) : Coalesced cmd s := by
  have hok : NotifierOk cmd s :=
    h.invariant (C := fun _ _ => True) (fun _ _ _ hs _ hstep => hs.step hstep) (.start cmd tip) fun _ _ => trivial
  refine ⟨?_, hok.ordered, fun f hf => ?_, settled_of_ok hok, fun tr' t hrun hown hend => ?_⟩
  · rw [hok.children]
    split <;> omega
  · obtain ⟨-, t, ht, hargv, -⟩ := hok.argv f hf
    exact ⟨t, ht, hargv⟩
  · obtain ⟨hok', hchan, hdebt⟩ := debt_run hrun hok hown
    rw [← hchan]
    rcases hend with hlong | hstuck
    · have := debt_le_three s
      exact debt_eq_zero.mp (by omega)
    · by_contra hbehind
      obtain ⟨e, u, he, hstep⟩ := exists_step hok' hbehind
      exact hstuck e u he hstep

local instance hashNeZero : NeZero (2 ^ 256) := ⟨by decide⟩

/-- Two tips before the loop wakes, one while it wakes and one while its command runs. -/
def burst : List Event :=
  [.tip ⟨1, 1, 1⟩, .tip ⟨2, 2, 2⟩, .wake, .tip ⟨3, 3, 3⟩, .fire true, .tip ⟨4, 4, 4⟩, .finish]

theorem hook_after_burst : ∃ r, Trace.follow (Notifier.step ⟨['x'], [['%', 'h']]⟩) (.start ⟨0, 0, 0⟩) burst = some r ∧
    r.2.fired = [(3, [['x'], ['3']])] ∧ Coalesced ⟨['x'], [['%', 'h']]⟩ r.2 :=
  ⟨_, rfl, rfl, hook_coalesces (@Trace.run_follow _ _ _ burst _ _ rfl)⟩

end BlockNotify

end Alphanumeric
