/-
# The startup lock

`src/main.rs`: a node takes a lock file that names its process, `ensure_pid_lock`, and
removes it by name when it ends, `remove_db_lock`. Every call on the file is a step of its
own, and any number of processes take them in any order; a process may fail at a call, crash
anywhere, remove the lock on its exit path and again when its `StartupLockGuard` is dropped,
and be restarted in place under its own pid. Pids are never reused. `creator` and `serial`
are ghosts: who made a file, and which one it is.

Key definitions: `LockFile`, `LockPhase`, `LockSystem`, `LockSystem.next`, `Undisturbed`,
`SafeRemoval`, `LockInvariant`.
Key theorems: `named_pidText`, `LockInvariant.next`, `LockInvariant.safe`, `solo_start`,
`one_process_per_chain`.
-/
import Alphanumeric.SendAnswers
import Alphanumeric.OrphanTrees
import Alphanumeric.Lib.Trace
import Mathlib

namespace Alphanumeric

abbrev Pid : Type := Fin (2 ^ 32)

structure LockFile where
  text : Text
  creator : Option Pid
  serial : ℕ
deriving DecidableEq

local instance pidNeZero : NeZero (2 ^ 32) := ⟨by decide⟩

/-- `trim().parse::<u32>()`. -/
def LockFile.named (f : LockFile) : Option Pid := (parseU32 (Gui.trim f.text)).map (Fin.ofNat (2 ^ 32))

/-- What `writeln!` puts into the file. -/
def pidText (p : Pid) : Text := Nat.toDigits 10 p.val ++ ['\n']

/-- What a process does next. -/
inductive LockPhase where
  | absent
  /-- `exists`, in `ensure_pid_lock`. -/
  | starting
  /-- `read_to_string`. -/
  | reading
  /-- `is_process_alive`, of the pid that the file `serial` named. -/
  | judging (pid : Pid) (serial : ℕ)
  /-- `remove_file`, of a stale lock. -/
  | unlinking (serial : ℕ)
  /-- `create_new`. -/
  | creating
  /-- `writeln!`. -/
  | writing (serial : ℕ)
  /-- `ensure_pid_lock` has returned `Ok`. -/
  | held
  /-- `ensure_pid_lock` has returned `Err`. -/
  | failed
  /-- `exists`, in `remove_db_lock`. -/
  | leaving
  /-- `remove_file`, in `remove_db_lock`. -/
  | releasing
  /-- `remove_db_lock` has returned. -/
  | released
  | gone
deriving DecidableEq

structure LockSystem where
  file : Option LockFile
  phase : Pid → LockPhase
  fresh : ℕ

inductive LockEvent where
  | launch (p : Pid)
  /-- The next call of a process succeeds. -/
  | step (p : Pid)
  /-- The next call of a process fails. -/
  | fail (p : Pid)
  /-- `exists` cannot look, and says no. -/
  | blind (p : Pid)
  /-- The exit path, or the guard, calls `remove_db_lock`. -/
  | stop (p : Pid)
  /-- `exec`: a restart in place. -/
  | exec (p : Pid)
  /-- A crash, or the end of the process. -/
  | crash (p : Pid)

namespace LockSystem

/-- `is_process_alive`. -/
def live (s : LockSystem) (p : Pid) : Bool := decide (s.phase p ≠ .absent) && decide (s.phase p ≠ .gone)

def goto (s : LockSystem) (p : Pid) (ph : LockPhase) : LockSystem := { s with phase := Function.update s.phase p ph }

def advance (s : LockSystem) (p : Pid) : LockSystem :=
  match s.phase p with
  | .starting => s.goto p (if s.file.isSome then .reading else .creating)
  | .reading =>
    match s.file with
    | none => s.goto p .failed
    | some f =>
      match f.named with
      | none => s.goto p .failed
      | some pid => s.goto p (.judging pid f.serial)
  -- a lock with the own pid is left over from before a restart in place
  | .judging pid serial => s.goto p (if pid = p ∨ s.live pid = false then .unlinking serial else .failed)
  | .unlinking _ => { s.goto p .creating with file := none }
  | .creating =>
    match s.file with
    | some _ => s.goto p .failed
    | none => { s.goto p (.writing s.fresh) with file := some ⟨[], some p, s.fresh⟩, fresh := s.fresh + 1 }
  -- the handle goes on writing to its own file, wherever that is by now
  | .writing serial =>
    { s.goto p .held with file := s.file.map fun f => if f.serial = serial then { f with text := pidText p } else f }
  | .leaving => s.goto p (if s.file.isSome then .releasing else .released)
  | .releasing => { s.goto p .released with file := none }
  | _ => s

/-- A call that fails; a failed removal is ignored. -/
def stumble (s : LockSystem) (p : Pid) : LockSystem :=
  match s.phase p with
  | .starting => s.goto p .failed
  | .reading => s.goto p .failed
  | .unlinking _ => s.goto p .creating
  | .creating => s.goto p .failed
  | .writing _ => s.goto p .failed
  | .releasing => s.goto p .released
  | _ => s

def next (s : LockSystem) : LockEvent → LockSystem
  | .launch p => if s.phase p = .absent then s.goto p .starting else s
  | .step p => s.advance p
  | .fail p => s.stumble p
  | .blind p =>
    match s.phase p with
    | .starting => s.goto p .creating
    | .leaving => s.goto p .released
    | _ => s
  | .stop p => if s.phase p = .held ∨ s.phase p = .released then s.goto p .leaving else s
  | .exec p => if s.phase p = .released then s.goto p .starting else s
  | .crash p => if s.live p then s.goto p .gone else s

/-- The lock of an earlier run, if any: it names none but a process that is gone. -/
structure Initial (s : LockSystem) : Prop where
  quiet : ∀ p, s.phase p = .absent ∨ s.phase p = .gone
  stale : ∀ f, s.file = some f → f.creator = none ∧ f.serial < s.fresh ∧ ∀ p, f.named = some p → s.phase p = .gone

end LockSystem

/-- A removal finds the file it was decided on: the one that was judged, or the process's own. -/
def Undisturbed (s : LockSystem) (e : LockEvent) : Prop :=
  ∀ p f, e = .step p → s.file = some f →
    (∀ serial, s.phase p = .unlinking serial → f.serial = serial) ∧
    (s.phase p = .releasing → f.creator = some p)

/-- No lock that names another live process is removed. -/
def SafeRemoval (s : LockSystem) (e : LockEvent) : Prop :=
  ∀ p f q, e = .step p → (s.phase p = .releasing ∨ ∃ serial, s.phase p = .unlinking serial) →
    s.file = some f → f.named = some q → q ≠ p → s.live q = false

/-! ### The pid in the file -/

theorem trim_line {c : Char} {t : Text} (hc : isWhitespace c = false) (ht : ∀ d ∈ t, isWhitespace d = false) :
    Gui.trim (c :: t ++ ['\n']) = c :: t := by
  have hnewline : isWhitespace '\n' = true := by decide
  obtain ⟨d, u, hu⟩ := List.exists_cons_of_ne_nil (List.reverse_ne_nil_iff.mpr (List.cons_ne_nil c t))
  have hd : isWhitespace d = false := by
    have hmem : d ∈ c :: t := List.mem_reverse.mp (hu ▸ List.mem_cons_self ..)
    rcases List.mem_cons.mp hmem with rfl | hmem
    · exact hc
    · exact ht d hmem
  unfold Gui.trim
  rw [List.cons_append, List.dropWhile_cons_of_neg (by simp [hc]), ← List.cons_append, List.reverse_append,
    List.reverse_singleton, List.singleton_append, List.dropWhile_cons_of_pos hnewline, hu,
    List.dropWhile_cons_of_neg (by simp [hd]), ← hu, List.reverse_reverse]

theorem isWhitespace_digit {c : Char} (hc : c.isDigit = true) : isWhitespace c = false := by
  unfold Char.isDigit at hc
  rw [Bool.and_eq_true, decide_eq_true_eq, decide_eq_true_eq] at hc
  have hlow : 48 ≤ c.toNat := hc.1
  have hhigh : c.toNat ≤ 57 := hc.2
  unfold isWhitespace
  simp only [Bool.or_eq_false_iff, Bool.and_eq_false_iff, decide_eq_false_iff_not]
  omega

theorem named_pidText (p : Pid) (creator : Option Pid) (serial : ℕ) :
    (LockFile.mk (pidText p) creator serial).named = some p := by
  have hdigit : ∀ c ∈ Nat.toDigits 10 p.val, isWhitespace c = false := fun c hc =>
    isWhitespace_digit (Nat.isDigit_of_mem_toDigits (by decide) (by decide) hc)
  have htrim : Gui.trim (pidText p) = Nat.toDigits 10 p.val := by
    obtain ⟨c, t, ht⟩ := List.exists_cons_of_ne_nil (Nat.toDigits_ne_nil (n := p.val) (b := 10))
    rw [ht] at hdigit
    rw [pidText, ht]
    exact trim_line (hdigit c (List.mem_cons_self ..)) fun d hd => hdigit d (List.mem_cons_of_mem _ hd)
  unfold LockFile.named
  simp only [htrim, parseU32_toDigits p.isLt, Option.map_some, Fin.ofNat_val_eq_self]

theorem named_empty (creator : Option Pid) (serial : ℕ) : (LockFile.mk [] creator serial).named = none := rfl

/-! ### The invariant -/

/-- What a process in a phase may count on. -/
def Backed (s : LockSystem) (p : Pid) : LockPhase → Prop
  | .held => ∃ f, s.file = some f ∧ f.creator = some p
  | .writing n => ∃ f, s.file = some f ∧ f.creator = some p ∧ f.serial = n ∧ f.text = []
  | .judging r n => n < s.fresh ∧ ∀ f, s.file = some f → f.serial = n → f.named = some r
  | .unlinking n => n < s.fresh ∧ ∀ f, s.file = some f → f.serial = n →
      ∃ r, f.named = some r ∧ (r = p ∨ s.phase r = .gone)
  | _ => True

structure LockInvariant (s : LockSystem) : Prop where
  fresh : ∀ f, s.file = some f → f.serial < s.fresh
  named : ∀ f q, s.file = some f → f.named = some q → f.creator = some q ∨ f.creator = none ∧ s.phase q = .gone
  launched : ∀ f q, s.file = some f → f.creator = some q → s.phase q ≠ .absent
  backed : ∀ p, Backed s p (s.phase p)

section Keeps

variable {s : LockSystem} {p : Pid}

theorem goto_phase (ph : LockPhase) (q : Pid) : (s.goto p ph).phase q = if q = p then ph else s.phase q := by
  unfold LockSystem.goto
  simp only [Function.update_apply]

theorem goto_gone (ph : LockPhase) {q : Pid} (hp : s.phase p ≠ .gone) (hq : s.phase q = .gone) :
    (s.goto p ph).phase q = .gone := by
  rw [goto_phase, if_neg]
  · exact hq
  · rintro rfl
    exact hp hq

theorem Backed.goto {q : Pid} {ph x : LockPhase} (hp : s.phase p ≠ .gone) (h : Backed s q x) :
    Backed (s.goto p ph) q x := by
  cases x with
  | unlinking n =>
    refine ⟨h.1, fun f hf hn => ?_⟩
    obtain ⟨r, hr, hor⟩ := h.2 f hf hn
    exact ⟨r, hr, hor.imp id (goto_gone ph hp)⟩
  | _ => exact h

/-- A process that goes on leaves the file, and what the others count on, as it was. -/
theorem LockInvariant.goto (h : LockInvariant s) {ph : LockPhase} (hp : s.phase p ≠ .gone) (hph : ph ≠ .absent)
    (hback : Backed s p ph) : LockInvariant (s.goto p ph) where
  fresh := h.fresh
  named f q hf hq := (h.named f q hf hq).imp id fun hgone => ⟨hgone.1, goto_gone ph hp hgone.2⟩
  launched f q hf hq := by
    rw [goto_phase]
    split
    · exact hph
    · exact h.launched f q hf hq
  backed q := by
    rw [goto_phase]
    split
    · rename_i hq
      rw [hq]
      exact hback.goto hp
    · exact (h.backed q).goto hp

/-- A file is removed that nobody holds. -/
theorem LockInvariant.remove (h : LockInvariant s) {ph : LockPhase}
    (hph : ph = .creating ∨ ph = .released) (hfree : ∀ q ≠ p, s.phase q ≠ .held ∧ ∀ n, s.phase q ≠ .writing n) :
    LockInvariant { s.goto p ph with file := none } where
  fresh f hf := by cases hf
  named f q hf := by cases hf
  launched f q hf := by cases hf
  backed q := by
    change Backed _ q ((s.goto p ph).phase q)
    rw [goto_phase]
    split
    · rcases hph with rfl | rfl <;> exact trivial
    · rename_i hq
      have hback := h.backed q
      obtain ⟨hheld, hwriting⟩ := hfree q hq
      rcases hx : s.phase q with _ | _ | _ | ⟨r, n⟩ | n | _ | n | _ | _ | _ | _ | _ | _
      case held => exact absurd hx hheld
      case writing => exact absurd hx (hwriting n)
      case judging =>
        rw [hx] at hback
        exact ⟨hback.1, fun f hf => by cases hf⟩
      case unlinking =>
        rw [hx] at hback
        exact ⟨hback.1, fun f hf => by cases hf⟩
      all_goals exact trivial

theorem LockInvariant.create (h : LockInvariant s) (hfile : s.file = none) :
    LockInvariant { s.goto p (.writing s.fresh) with file := some ⟨[], some p, s.fresh⟩, fresh := s.fresh + 1 } where
  fresh f hf := by
    cases hf
    exact Nat.lt_succ_self _
  named f q hf hq := by
    cases hf
    rw [named_empty] at hq
    cases hq
  launched f q hf hq := by
    cases hf
    cases hq
    change (s.goto p _).phase p ≠ .absent
    rw [goto_phase, if_pos rfl]
    exact LockPhase.noConfusion
  backed q := by
    change Backed _ q ((s.goto p _).phase q)
    rw [goto_phase]
    split
    · rename_i hq
      rw [hq]
      exact ⟨_, rfl, rfl, rfl, rfl⟩
    · have hback := h.backed q
      rcases hx : s.phase q with _ | _ | _ | ⟨r, n⟩ | n | _ | n | _ | _ | _ | _ | _ | _
      case held =>
        rw [hx] at hback
        obtain ⟨f, hf, -⟩ := hback
        rw [hfile] at hf
        cases hf
      case writing =>
        rw [hx] at hback
        obtain ⟨f, hf, -⟩ := hback
        rw [hfile] at hf
        cases hf
      case judging =>
        rw [hx] at hback
        refine ⟨Nat.lt_succ_of_lt hback.1, fun f hf hn => ?_⟩
        cases hf
        exact absurd hback.1 (hn ▸ lt_irrefl _)
      case unlinking =>
        rw [hx] at hback
        refine ⟨Nat.lt_succ_of_lt hback.1, fun f hf hn => ?_⟩
        cases hf
        exact absurd hback.1 (hn ▸ lt_irrefl _)
      all_goals exact trivial

theorem LockInvariant.write (h : LockInvariant s) {n : ℕ} (hp : s.phase p = .writing n) :
    LockInvariant { s.goto p .held with
      file := s.file.map fun f => if f.serial = n then { f with text := pidText p } else f } := by
  have hback := h.backed p
  rw [hp] at hback
  obtain ⟨f, hf, hcreator, rfl, htext⟩ := hback
  have hempty : f.named = none := by
    unfold LockFile.named
    rw [htext]
    rfl
  have hgone : s.phase p ≠ .gone := by
    rw [hp]
    exact LockPhase.noConfusion
  have hfile : (s.file.map fun g => if g.serial = f.serial then { g with text := pidText p } else g) =
      some ⟨pidText p, f.creator, f.serial⟩ := by
    rw [hf, Option.map_some, if_pos rfl]
  rw [hfile]
  refine ⟨fun g hg => ?_, fun g q hg hq => ?_, fun g q hg hq => ?_, fun q => ?_⟩
  · cases hg
    exact h.fresh f hf
  · cases hg
    rw [named_pidText, Option.some_inj] at hq
    exact .inl (hq ▸ hcreator)
  · cases hg
    rw [goto_phase]
    split
    · exact LockPhase.noConfusion
    · exact h.launched f q hf hq
  · change Backed _ q ((s.goto p .held).phase q)
    rw [goto_phase]
    split
    · rename_i hq
      rw [hq]
      exact ⟨_, rfl, hcreator⟩
    · rename_i hq
      have hback := h.backed q
      rcases hx : s.phase q with _ | _ | _ | ⟨r, n⟩ | n | _ | n | _ | _ | _ | _ | _ | _
      case held =>
        rw [hx] at hback
        obtain ⟨g, hg, hgq⟩ := hback
        rw [hf] at hg
        cases hg
        exact ⟨_, rfl, hgq⟩
      case writing =>
        rw [hx] at hback
        obtain ⟨g, hg, hgq, -⟩ := hback
        rw [hf] at hg
        cases hg
        rw [hcreator, Option.some_inj] at hgq
        exact absurd hgq.symm hq
      case judging =>
        rw [hx] at hback
        refine ⟨hback.1, fun g hg hn => ?_⟩
        cases hg
        have hnamed := hback.2 f hf hn
        rw [hempty] at hnamed
        cases hnamed
      case unlinking =>
        rw [hx] at hback
        refine ⟨hback.1, fun g hg hn => ?_⟩
        cases hg
        obtain ⟨r, hnamed, -⟩ := hback.2 f hf hn
        rw [hempty] at hnamed
        cases hnamed
      all_goals exact trivial

end Keeps

section Steps

variable {s : LockSystem} {p : Pid}

theorem live_eq_false : s.live p = false ↔ s.phase p = .absent ∨ s.phase p = .gone := by
  unfold LockSystem.live
  rw [Bool.and_eq_false_iff, decide_eq_false_iff_not, decide_eq_false_iff_not, not_not, not_not]

/-- The file that was judged is nobody's. -/
theorem LockInvariant.unlinking_free (h : LockInvariant s) {n : ℕ} (hp : s.phase p = .unlinking n)
    (hfound : ∀ f, s.file = some f → f.serial = n) :
    ∀ q ≠ p, s.phase q ≠ .held ∧ ∀ m, s.phase q ≠ .writing m := by
  have howner : ∀ q f, q ≠ p → s.file = some f → f.creator = some q → s.phase q = .gone := by
    intro q f hq hf hcreator
    have hback := h.backed p
    rw [hp] at hback
    obtain ⟨r, hnamed, hor⟩ := hback.2 f hf (hfound f hf)
    rcases h.named f r hf hnamed with heq | ⟨hnone, -⟩
    · rw [hcreator, Option.some_inj] at heq
      subst heq
      exact hor.resolve_left hq
    · rw [hcreator] at hnone
      cases hnone
  intro q hq
  constructor
  · intro hx
    have hback := h.backed q
    rw [hx] at hback
    obtain ⟨f, hf, hcreator⟩ := hback
    rw [howner q f hq hf hcreator] at hx
    cases hx
  · intro m hx
    have hback := h.backed q
    rw [hx] at hback
    obtain ⟨f, hf, hcreator, -⟩ := hback
    rw [howner q f hq hf hcreator] at hx
    cases hx

theorem LockInvariant.releasing_free (h : LockInvariant s) (hfound : ∀ f, s.file = some f → f.creator = some p) :
    ∀ q ≠ p, s.phase q ≠ .held ∧ ∀ m, s.phase q ≠ .writing m := by
  intro q hq
  constructor
  · intro hx
    have hback := h.backed q
    rw [hx] at hback
    obtain ⟨f, hf, hcreator⟩ := hback
    rw [hfound f hf, Option.some_inj] at hcreator
    exact hq hcreator.symm
  · intro m hx
    have hback := h.backed q
    rw [hx] at hback
    obtain ⟨f, hf, hcreator, -⟩ := hback
    rw [hfound f hf, Option.some_inj] at hcreator
    exact hq hcreator.symm

/-- A pid that was judged stale is the process's own, or that of a process that has ended. -/
theorem LockInvariant.judged (h : LockInvariant s) {r : Pid} {n : ℕ} (hp : s.phase p = .judging r n)
    (hdead : r = p ∨ s.live r = false) : Backed s p (.unlinking n) := by
  have hback := h.backed p
  rw [hp] at hback
  refine ⟨hback.1, fun f hf hn => ⟨r, hback.2 f hf hn, hdead.imp id fun hlive => ?_⟩⟩
  rcases h.named f r hf (hback.2 f hf hn) with hcreator | ⟨-, hgone⟩
  · exact (live_eq_false.mp hlive).resolve_left (h.launched f r hf hcreator)
  · exact hgone

theorem LockInvariant.advance (h : LockInvariant s) (hC : Undisturbed s (.step p)) :
    LockInvariant (s.advance p) := by
  unfold LockSystem.advance
  have hne : ∀ {x : LockPhase}, s.phase p = x → x ≠ .gone → s.phase p ≠ .gone := fun hx hgone => hx ▸ hgone
  rcases hx : s.phase p with _ | _ | _ | ⟨r, n⟩ | n | _ | n | _ | _ | _ | _ | _ | _ <;> dsimp only
  case starting =>
    refine h.goto (hne hx (by decide)) (by split <;> decide) ?_
    split <;> exact trivial
  case reading =>
    split
    · exact h.goto (hne hx (by decide)) (by decide) trivial
    · rename_i f hf
      split
      · exact h.goto (hne hx (by decide)) (by decide) trivial
      · rename_i r hr
        refine h.goto (hne hx (by decide)) (by simp) ⟨h.fresh f hf, fun g hg _ => ?_⟩
        rw [hf] at hg
        cases hg
        exact hr
  case judging =>
    by_cases hdead : r = p ∨ s.live r = false
    · rw [if_pos hdead]
      exact h.goto (hne hx (by simp)) (by simp) (h.judged hx hdead)
    · rw [if_neg hdead]
      exact h.goto (hne hx (by simp)) (by decide) trivial
  case unlinking =>
    exact h.remove (.inl rfl)
      (h.unlinking_free hx fun f hf => (hC p f rfl hf).1 n hx)
  case creating =>
    split
    · exact h.goto (hne hx (by decide)) (by decide) trivial
    · rename_i hfile
      exact h.create hfile
  case writing => exact h.write hx
  case leaving =>
    refine h.goto (hne hx (by decide)) (by split <;> decide) ?_
    split <;> exact trivial
  case releasing =>
    exact h.remove (.inr rfl) (h.releasing_free fun f hf => (hC p f rfl hf).2 hx)
  all_goals exact h

theorem LockInvariant.stumble (h : LockInvariant s) : LockInvariant (s.stumble p) := by
  unfold LockSystem.stumble
  split
  case h_7 => exact h
  all_goals
    rename_i hx
    exact h.goto (by rw [hx]; exact LockPhase.noConfusion) (by decide) trivial

/-- **Every step keeps the invariant**, if a removal finds what it was decided on. -/
theorem LockInvariant.next (h : LockInvariant s) {e : LockEvent} (hC : Undisturbed s e) :
    LockInvariant (s.next e) := by
  cases e with
  | launch p =>
    simp only [LockSystem.next]
    split
    · rename_i hx
      exact h.goto (by rw [hx]; decide) (by decide) trivial
    · exact h
  | step p => exact h.advance hC
  | fail p => exact h.stumble
  | blind p =>
    simp only [LockSystem.next]
    split
    · rename_i hx
      exact h.goto (by rw [hx]; decide) (by decide) trivial
    · rename_i hx
      exact h.goto (by rw [hx]; decide) (by decide) trivial
    · exact h
  | stop p =>
    simp only [LockSystem.next]
    split
    · rename_i hx
      refine h.goto ?_ (by decide) trivial
      rcases hx with hx | hx <;> rw [hx] <;> decide
    · exact h
  | exec p =>
    simp only [LockSystem.next]
    split
    · rename_i hx
      exact h.goto (by rw [hx]; decide) (by decide) trivial
    · exact h
  | crash p =>
    simp only [LockSystem.next]
    split
    · rename_i hlive
      refine h.goto (fun hgone => ?_) (by decide) trivial
      rw [live_eq_false.mpr (.inr hgone)] at hlive
      cases hlive
    · exact h

theorem LockInvariant.safe (h : LockInvariant s) {e : LockEvent} (hC : Undisturbed s e) : SafeRemoval s e := by
  rintro p f q rfl hphase hf hnamed hq
  obtain ⟨hjudged, hown⟩ := hC p f rfl hf
  rcases hphase with hx | ⟨n, hx⟩
  · rcases h.named f q hf hnamed with hcreator | ⟨-, hgone⟩
    · rw [hown hx, Option.some_inj] at hcreator
      exact absurd hcreator.symm hq
    · exact live_eq_false.mpr (.inr hgone)
  · have hback := h.backed p
    rw [hx] at hback
    obtain ⟨r, hr, hor⟩ := hback.2 f hf (hjudged n hx)
    rw [hnamed, Option.some_inj] at hr
    subst hr
    exact live_eq_false.mpr (.inr (hor.resolve_left hq))

theorem LockSystem.Initial.invariant (h : s.Initial) : LockInvariant s where
  fresh f hf := (h.stale f hf).2.1
  named f q hf hq := .inr ⟨(h.stale f hf).1, (h.stale f hf).2.2 q hq⟩
  launched f q hf hq := by
    rw [(h.stale f hf).1] at hq
    cases hq
  backed p := by
    rcases h.quiet p with hp | hp <;> rw [hp] <;> exact trivial

/-- Two holders have made the same file. -/
theorem LockInvariant.one_holder (h : LockInvariant s) {q : Pid} (hp : s.phase p = .held) (hq : s.phase q = .held) :
    p = q := by
  have hbackp := h.backed p
  have hbackq := h.backed q
  rw [hp] at hbackp
  rw [hq] at hbackq
  obtain ⟨f, hf, hcp⟩ := hbackp
  obtain ⟨g, hg, hcq⟩ := hbackq
  rw [hf, Option.some_inj] at hg
  rw [hg, hcq, Option.some_inj] at hcp
  exact hcp.symm

/-! ### A start that is alone -/

theorem goto_self (ph : LockPhase) : (s.goto p ph).phase p = ph := by
  rw [goto_phase, if_pos rfl]

theorem advance_starting {f : LockFile} (hp : s.phase p = .starting) (hf : s.file = some f) :
    s.advance p = s.goto p .reading := by
  simp only [LockSystem.advance, hp, hf, Option.isSome_some, if_true]

theorem advance_reading {f : LockFile} {r : Pid} (hp : s.phase p = .reading) (hf : s.file = some f)
    (hr : f.named = some r) : s.advance p = s.goto p (.judging r f.serial) := by
  simp only [LockSystem.advance, hp, hf, hr]

theorem advance_judging {r : Pid} {n : ℕ} (hp : s.phase p = .judging r n) (hdead : r = p ∨ s.live r = false) :
    s.advance p = s.goto p (.unlinking n) := by
  simp only [LockSystem.advance, hp, if_pos hdead]

theorem advance_unlinking {n : ℕ} (hp : s.phase p = .unlinking n) :
    s.advance p = { s.goto p .creating with file := none } := by
  simp only [LockSystem.advance, hp]

theorem advance_creating (hp : s.phase p = .creating) (hf : s.file = none) :
    (s.advance p).phase p = .writing s.fresh := by
  simp only [LockSystem.advance, hp, hf]
  exact goto_self _

theorem advance_writing {n : ℕ} (hp : s.phase p = .writing n) : (s.advance p).phase p = .held := by
  simp only [LockSystem.advance, hp]
  exact goto_self _

/-- **A start that is alone, with a lock that can be read, succeeds.** -/
theorem solo_start {f : LockFile} {r : Pid} (hp : s.phase p = .starting) (halone : ∀ q ≠ p, s.live q = false)
    (hf : s.file = some f) (hr : f.named = some r) :
    ((List.replicate 6 (LockEvent.step p)).foldl LockSystem.next s).phase p = .held := by
  have hstale : r = p ∨ ((s.goto p .reading).goto p (.judging r f.serial)).live r = false := by
    by_cases h : r = p
    · exact .inl h
    · have hlive := live_eq_false.mp (halone r h)
      refine .inr (live_eq_false.mpr ?_)
      rwa [goto_phase, if_neg h, goto_phase, if_neg h]
  have hcreating : ({ ((((s.goto p .reading).goto p (.judging r f.serial)).goto p (.unlinking f.serial)).goto p
      .creating) with file := none } : LockSystem).phase p = .creating := goto_self _
  calc ((List.replicate 6 (LockEvent.step p)).foldl LockSystem.next s).phase p
      = ((((((s.advance p).advance p).advance p).advance p).advance p).advance p).phase p := rfl
    _ = .held := by
      rw [advance_starting hp hf, advance_reading (goto_self _) hf hr, advance_judging (goto_self _) hstale,
        advance_unlinking (goto_self _)]
      exact advance_writing (advance_creating hcreating rfl)

end Steps

/-- **One process per chain, where removals are undisturbed.** In every run in which a removal
finds the file that was judged, or the process's own, there is one holder at most and no lock is
removed that names another live process; and a start that is alone succeeds in every state. A process
holds from the `Ok` of `ensure_pid_lock` to its first call of `remove_db_lock`. -/
theorem one_process_per_chain (s t : LockSystem) (tr : List (LockSystem × LockEvent)) (h₀ : s.Initial)
    (hrun : Trace.Run (fun s e t => s.next e = t) s tr t) (hC : ∀ u ∈ tr, Undisturbed u.1 u.2) :
    ((∀ p q, t.phase p = .held → t.phase q = .held → p = q) ∧ ∀ e, Undisturbed t e → SafeRemoval t e) ∧
    ∀ (any : LockSystem) (p r : Pid) (f : LockFile), any.phase p = .starting → (∀ q ≠ p, any.live q = false) →
      any.file = some f → f.named = some r →
        ((List.replicate 6 (LockEvent.step p)).foldl LockSystem.next any).phase p = .held := by
  refine ⟨?_, fun s p r f hp halone hf hr => solo_start hp halone hf hr⟩
  have hinv : LockInvariant t := hrun.invariant (C := Undisturbed)
    (fun s e t h hC hst => hst ▸ h.next hC) h₀.invariant hC
  exact ⟨fun p q hp hq => hinv.one_holder hp hq, fun e he => hinv.safe he⟩

/-- The lock of process 7, which has crashed. -/
def crashedNode : LockSystem where
  file := some ⟨pidText 7, none, 0⟩
  phase q := if q = 7 then .gone else .absent
  fresh := 1

/-- Process 1 starts on the lock of the crashed node, process 2 finds its lock and gives up, process 1 removes the
lock on its exit path and looks once more when its guard is dropped, and process 3 starts. -/
def handover : List LockEvent :=
  [.launch 1, .step 1, .step 1, .step 1, .step 1, .step 1, .step 1, .launch 2, .step 2, .step 2, .step 2, .stop 1,
    .step 1, .step 1, .stop 1, .step 1, .crash 1, .launch 3, .step 3, .step 3, .step 3]

theorem crashedNode_initial : crashedNode.Initial where
  quiet p := by
    unfold crashedNode
    dsimp only
    split
    · exact .inr rfl
    · exact .inl rfl
  stale f hf := by
    cases hf
    refine ⟨rfl, by decide, fun p hp => ?_⟩
    rw [named_pidText, Option.some_inj] at hp
    exact if_pos hp.symm

/-- `Undisturbed`, computed. -/
def undisturbedCheck (s : LockSystem) : LockEvent → Bool
  | .step p =>
    match s.phase p with
    | .unlinking n => s.file.all fun f => decide (f.serial = n)
    | .releasing => s.file.all fun f => decide (f.creator = some p)
    | _ => true
  | _ => true

theorem undisturbedCheck_sound {s : LockSystem} {e : LockEvent} (h : undisturbedCheck s e = true) :
    Undisturbed s e := by
  rintro p f rfl hf
  unfold undisturbedCheck at h
  refine ⟨fun n hx => ?_, fun hx => ?_⟩
  · simp only [hx, hf, Option.all_some] at h
    exact of_decide_eq_true h
  · simp only [hx, hf, Option.all_some] at h
    exact of_decide_eq_true h

/-- The lock goes from one process to another, and is held by one at a time. -/
theorem one_process_per_chain_handover :
    ((handover.take 7).foldl LockSystem.next crashedNode).phase 1 = .held ∧
      (handover.foldl LockSystem.next crashedNode).phase 2 = .failed ∧
      (∀ p, (handover.foldl LockSystem.next crashedNode).phase p = .held ↔ p = 3) ∧
      ((List.replicate 6 (LockEvent.step 1)).foldl LockSystem.next (crashedNode.next (.launch 1))).phase 1 = .held := by
  have hchecked : (Trace.visited LockSystem.next crashedNode handover).all
      (fun u => undisturbedCheck u.1 u.2) = true := by decide +kernel
  have hundisturbed : ∀ u ∈ Trace.visited LockSystem.next crashedNode handover, Undisturbed u.1 u.2 :=
    fun u hu => undisturbedCheck_sound (List.all_eq_true.mp hchecked u hu)
  obtain ⟨⟨hone, -⟩, hsolo⟩ :=
    one_process_per_chain _ _ _ crashedNode_initial (Trace.run_visited _ _ _) hundisturbed
  have hthird : (handover.foldl LockSystem.next crashedNode).phase 3 = .held := by decide +kernel
  refine ⟨by decide +kernel, by decide +kernel, fun p => ⟨fun hp => hone p 3 hp hthird, fun hp => hp ▸ hthird⟩, ?_⟩
  have hlaunch : (crashedNode.next (.launch 1)).phase = Function.update crashedNode.phase 1 .starting := rfl
  refine hsolo _ 1 7 ⟨pidText 7, none, 0⟩ ?_ ?_ rfl (named_pidText 7 none 0)
  · rw [hlaunch, Function.update_self]
  · intro q hq
    rw [live_eq_false, hlaunch, Function.update_of_ne hq]
    exact crashedNode_initial.quiet q

/-- Two starts judge the same lock of a crashed node; the second removes the first one's. -/
def twoStarts : List LockEvent :=
  [.launch 1, .launch 2, .step 1, .step 1, .step 1, .step 2, .step 2, .step 2, .step 1, .step 1, .step 1]

/-- Process 1 removes its lock on the exit path, process 2 starts, and the guard of process 1 is dropped. -/
def droppedGuard : List LockEvent :=
  [.launch 1, .step 1, .step 1, .step 1, .step 1, .step 1, .step 1, .stop 1, .step 1, .step 1, .launch 2, .step 2,
    .step 2, .step 2, .stop 1, .step 1]

/-- Two processes hold at once, and either removal takes the lock of a live process. -/
theorem two_processes_hold :
    crashedNode.Initial ∧
      ((twoStarts ++ List.replicate 3 (LockEvent.step 2)).foldl LockSystem.next crashedNode).phase 1 = .held ∧
      ((twoStarts ++ List.replicate 3 (LockEvent.step 2)).foldl LockSystem.next crashedNode).phase 2 = .held ∧
      ¬ SafeRemoval (twoStarts.foldl LockSystem.next crashedNode) (.step 2) ∧
      ¬ SafeRemoval (droppedGuard.foldl LockSystem.next crashedNode) (.step 1) := by
  refine ⟨crashedNode_initial, by decide +kernel, by decide +kernel, fun h => ?_, fun h => ?_⟩
  · have hlive : (twoStarts.foldl LockSystem.next crashedNode).live 1 = false :=
      h 2 ⟨pidText 1, some 1, 1⟩ 1 rfl (.inr ⟨0, by decide +kernel⟩) (by decide +kernel) (named_pidText ..)
        (by decide)
    revert hlive
    decide +kernel
  · have hlive : (droppedGuard.foldl LockSystem.next crashedNode).live 2 = false :=
      h 1 ⟨pidText 2, some 2, 2⟩ 2 rfl (.inl (by decide +kernel)) (by decide +kernel) (named_pidText ..)
        (by decide)
    revert hlive
    decide +kernel

end Alphanumeric
