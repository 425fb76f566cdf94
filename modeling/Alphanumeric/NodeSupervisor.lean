/-
# The wallet and its node

`gui/src/node.rs`: `reclaim_orphan`, `NodeProcess::stop` and `supervise` on Unix. Any number of
supervisors run over one process table; every system call of one is a step, with what it
answers, and the processes start, end, change their group and owner in between, in any order,
while the lock file may come to hold any text. `kill` goes by the signed number. Process ids are
used again, but not the id of a child that has not been waited for; `birth` is a ghost that
tells the processes apart, and `raw` and `lastCheck` keep the text that `reclaim_orphan` read
and the table at its last check.

Key definitions: `Process`, `kill`, `denoted`, `Supervisor`, `NodeSystem`, `NodeSystem.next`, `signals`,
`OwnSignals`, `Fair`, `sound`.
Key theorems: `kill_in_range`, `judgeable_iff`, `accounted_poll`, `accounted_call`, `step_accounted`,
`stops_only_its_own_node`.
-/
import Alphanumeric.SendAnswers
import Alphanumeric.OrphanTrees
import Alphanumeric.Lib.Trace

namespace Alphanumeric.Gui.Supervise

/-- `ExitStatus::code`. -/
abbrev ExitCode : Type := Option ℤ

structure Process where
  id : ℕ
  group : ℕ
  /-- The wallet may signal it. -/
  permitted : Bool
  /-- How it ended; it stays in the table until it has been waited for. -/
  exit : Option ExitCode
  /-- A child of the wallet. -/
  ours : Bool
  birth : ℕ
deriving DecidableEq

def Process.running (q : Process) : Bool := q.exit.isNone

abbrev ProcessTable : Type := List Process

/-! ### Signals -/

/-- `pid as i32`. -/
def signedPid (pid : ℕ) : ℤ := (pid : ℤ).bmod (2 ^ 32)

/-- Whom `kill(p)` of a process of `group` is for. -/
def addressed (group : ℕ) (p : ℤ) (q : Process) : Bool :=
  if 0 < p then (q.id : ℤ) = p
  else if p = 0 then q.group = group
  else if p = -1 then true
  else (q.group : ℤ) = -p

/-- Whom `kill(pid as i32)` reaches. -/
def kill (t : ProcessTable) (group pid : ℕ) : List Process :=
  t.filter fun q => addressed group (signedPid pid) q && q.permitted

/-- `kill` succeeds if it reaches somebody. -/
def isAlive (t : ProcessTable) (group pid : ℕ) : Bool := !(kill t group pid).isEmpty

/-- `raw.trim().parse::<u32>()`. -/
def denoted (raw : Text) : Option ℕ := parseU32 (trim raw)

/-! ### The supervisor -/

inductive NodeState where
  | starting
  | running (pid : ℕ)
  | exited (code : ExitCode)
  | failed (message : Text)
  | stopped
deriving DecidableEq

/-- `Exited`, `Failed` or `Stopped`. -/
def NodeState.isOver : NodeState → Bool
  | .starting => false
  | .running _ => false
  | _ => true

/-- What the supervisor's thread does next. -/
inductive Phase where
  | idle
  /-- `read_to_string`, in `reclaim_orphan`. -/
  | reading
  /-- The first `is_alive`. -/
  | checking (pid : ℕ)
  /-- `ask_to_stop`, of the orphan. -/
  | asking (pid : ℕ)
  /-- The loop until the grace is over. -/
  | waiting (pid : ℕ)
  /-- `remove_file`. -/
  | removing
  /-- `reclaim_orphan` has returned `Ok`; `NodeProcess::spawn`. -/
  | spawning
  /-- `recv_timeout`. -/
  | watching
  /-- `exited`, after a timeout. -/
  | polling
  /-- `exited`, first thing in `stop`. -/
  | stopping
  /-- `ask_to_stop`, of the child. -/
  | terminating
  /-- The loop in `stop`. -/
  | graced
  /-- `Child::kill`. -/
  | killing
  /-- `Child::wait`. -/
  | reaping
  | ended
deriving DecidableEq

structure ChildHandle where
  id : ℕ
  birth : ℕ
deriving DecidableEq

structure Supervisor where
  phase : Phase
  state : NodeState
  child : Option ChildHandle
  /-- The `Command::Stop`s in the channel. -/
  pending : ℕ
  connected : Bool
  raw : Option Text
  lastCheck : ProcessTable

/-- What a call answers: as the table has it, an error, the end of the grace, or a new process. -/
inductive Answer where
  | ok
  | error (message : Text)
  | late
  | spawned (id : ℕ)
deriving DecidableEq

structure NodeSystem where
  table : ProcessTable
  /-- The wallet's process group. -/
  group : ℕ
  lock : Option Text
  lockPath : Text
  sup : ℕ → Supervisor
  fresh : ℕ

inductive NodeEvent where
  | start (i : ℕ)
  /-- The thread could not be started. -/
  | startFailed (i : ℕ) (error : Text)
  /-- `Supervisor::stop`, also from `drop`. -/
  | send (i : ℕ)
  /-- The sender is gone. -/
  | hangup (i : ℕ)
  /-- The next call of a supervisor's thread. -/
  | call (i : ℕ) (a : Answer)
  | fork (id group : ℕ) (permitted : Bool)
  | finish (id : ℕ) (code : ExitCode)
  /-- Somebody else's process has been waited for. -/
  | bury (id : ℕ)
  | regroup (id group : ℕ)
  | chown (id : ℕ) (permitted : Bool)
  | edit (lock : Option Text)

def orphanMessage (pid : ℕ) (lockPath : Text) : Text :=
  "A node from an earlier run (pid ".toList ++ Nat.toDigits 10 pid ++ ") is still holding ".toList ++ lockPath ++
    ". Stop it, then start the wallet again.".toList

def statusMessage (error : Text) : Text := "Could not check on the node: ".toList ++ error

def threadMessage (error : Text) : Text := "Could not start the node supervisor thread: ".toList ++ error

/-- `try_wait`, where it does not fail. -/
def waitStatus (t : ProcessTable) (c : Option ChildHandle) : Option ExitCode :=
  c.bind fun c => (t.find? fun q => decide (q.id = c.id)).bind Process.exit

/-- A child that has been waited for leaves the table. -/
def reap (t : ProcessTable) (c : Option ChildHandle) : ProcessTable :=
  t.filter fun q => decide (c.map ChildHandle.id ≠ some q.id)

/-- No process has this id, and a process may. -/
def vacant (t : ProcessTable) (id : ℕ) : Bool :=
  decide (0 < id) && decide (id < 2 ^ 31) && t.all fun q => decide (q.id ≠ id)

def alter (t : ProcessTable) (id : ℕ) (f : Process → Process) : ProcessTable :=
  t.map fun q => if q.id = id then f q else q

namespace NodeSystem

def put (s : NodeSystem) (i : ℕ) (v : Supervisor) : NodeSystem := { s with sup := Function.update s.sup i v }

def goto (s : NodeSystem) (i : ℕ) (ph : Phase) : NodeSystem := s.put i { s.sup i with phase := ph }

/-- `set_state`, and the thread ends. -/
def quit (s : NodeSystem) (i : ℕ) (st : NodeState) : NodeSystem := s.put i { s.sup i with phase := .ended, state := st }

/-- A check of the child: what follows if it has ended, if the check fails, if it is still running. -/
def poll (s : NodeSystem) (i : ℕ) (a : Answer) (done : ExitCode → NodeState) (failed : Text → NodeState)
    (again : Phase) : NodeSystem :=
  match a with
  | .error message => s.quit i (failed (statusMessage message))
  | _ =>
    match waitStatus s.table (s.sup i).child with
    | some code => { s.quit i (done code) with table := reap s.table (s.sup i).child }
    | none => s.goto i again

/-- `is_alive`, and where the answer leads. -/
def check (s : NodeSystem) (i pid : ℕ) (alive : Phase) : NodeSystem :=
  s.put i { s.sup i with
    phase := if isAlive s.table s.group pid then alive else .removing, lastCheck := s.table }

def call (s : NodeSystem) (i : ℕ) (a : Answer) : NodeSystem :=
  match (s.sup i).phase with
  | .reading =>
    match a, s.lock with
    | .error _, _ => s.goto i .spawning
    | _, none => s.goto i .spawning
    | _, some raw =>
      s.put i { s.sup i with
        raw := some raw
        phase := match denoted raw with
          | some pid => .checking pid
          | none => .removing }
  | .checking pid => s.check i pid (.asking pid)
  | .asking pid => s.goto i (.waiting pid)
  | .waiting pid => if a = .late then s.quit i (.failed (orphanMessage pid s.lockPath)) else s.check i pid
      (.waiting pid)
  | .removing => { s.goto i .spawning with lock := if a = .ok then none else s.lock }
  | .spawning =>
    match a with
    | .error message => s.quit i (.failed message)
    | .spawned id =>
      if vacant s.table id then
        { s.put i { s.sup i with phase := .watching, state := .running id, child := some ⟨id, s.fresh⟩ } with
          table := ⟨id, s.group, true, none, true, s.fresh⟩ :: s.table
          fresh := s.fresh + 1 }
      else s
    | _ => s
  | .watching =>
    if 0 < (s.sup i).pending then s.put i { s.sup i with phase := .stopping, pending := (s.sup i).pending - 1 }
    else s.goto i (if (s.sup i).connected then .polling else .stopping)
  | .polling => s.poll i a .exited .failed .watching
  | .stopping => s.poll i a (fun _ => .stopped) (fun _ => .stopped) .terminating
  | .terminating =>
    s.goto i (if (s.sup i).child.any fun c => isAlive s.table s.group c.id then .graced else .killing)
  | .graced =>
    if a = .late then s.goto i .killing
    else s.poll i a (fun _ => .stopped) (fun _ => .stopped) .graced
  | .killing => s.goto i .reaping
  -- `wait` blocks while the child is running
  | .reaping => s.poll i a (fun _ => .stopped) (fun _ => .stopped) .reaping
  | .idle => s
  | .ended => s

def next (s : NodeSystem) : NodeEvent → NodeSystem
  | .start i => if (s.sup i).phase = .idle then s.goto i .reading else s
  | .startFailed i error => if (s.sup i).phase = .idle then s.quit i (.failed (threadMessage error)) else s
  | .send i => s.put i { s.sup i with pending := (s.sup i).pending + 1 }
  | .hangup i => s.put i { s.sup i with connected := false }
  | .call i a => s.call i a
  | .fork id group permitted =>
    if vacant s.table id then
      { s with table := ⟨id, group, permitted, none, false, s.fresh⟩ :: s.table, fresh := s.fresh + 1 }
    else s
  | .finish id code => { s with table := alter s.table id fun q => { q with exit := some (q.exit.getD code) } }
  | .bury id => { s with table := s.table.filter fun q => !(decide (q.id = id) && !q.running && !q.ours) }
  | .regroup id group => { s with table := alter s.table id fun q => { q with group := group } }
  | .chown id permitted => { s with table := alter s.table id fun q => { q with permitted := permitted } }
  | .edit lock => { s with lock := lock }

end NodeSystem

/-- The processes that a step sends `SIGTERM` or `SIGKILL`. -/
def signals (s : NodeSystem) : NodeEvent → List Process
  | .call i _ =>
    match (s.sup i).phase with
    | .asking pid => kill s.table s.group pid
    | .terminating => (s.sup i).child.toList.flatMap fun c => kill s.table s.group c.id
    | .killing => (s.sup i).child.toList.flatMap fun c => kill s.table s.group c.id
    | _ => []
  | _ => []

/-- Only the process whose id the lock text denotes, and the supervisor's own child, are signalled. -/
def OwnSignals (s : NodeSystem) (e : NodeEvent) : Prop :=
  ∀ i a, e = .call i a → ∀ q ∈ signals s e,
    (∃ raw, (s.sup i).raw = some raw ∧ denoted raw = some q.id) ∨ ∃ c, (s.sup i).child = some c ∧ q.birth = c.birth

/-- What a supervisor promises: a node that is over does not run, and `reclaim_orphan` returns
`Ok`, and removes the lock, only where its last check found the orphan gone. -/
structure Fair (t : ProcessTable) (v : Supervisor) : Prop where
  gone : v.state.isOver = true → ∀ c, v.child = some c → ∀ q ∈ t, q.birth = c.birth → q.running = false
  reclaimed : v.phase = .removing ∨ v.phase = .spawning → ∀ raw, v.raw = some raw → ∀ q ∈ v.lastCheck,
    denoted raw = some q.id → q.running = false

/-- A running process with this id may be signalled. -/
def judgeable (t : ProcessTable) (pid : ℕ) : Bool := t.all fun q => decide (q.id ≠ pid) || !q.running || q.permitted

/-- The child is not running. -/
def childOver (t : ProcessTable) (c : Option ChildHandle) : Bool :=
  t.all fun q => decide (c.map ChildHandle.birth ≠ some q.birth) || !q.running

/-- `SIGTERM` for an orphan goes to an id that a process can have, or reaches nobody; who has the
id may be signalled when it is checked; and a check of the child fails only when it has ended. -/
def sound (s : NodeSystem) : NodeEvent → Bool
  | .call i a =>
    match (s.sup i).phase, a with
    | .checking pid, _ => judgeable s.table pid
    | .asking pid, _ => decide (0 < pid ∧ pid < 2 ^ 31) || (kill s.table s.group pid).isEmpty
    | .waiting pid, a => decide (a = .late) || judgeable s.table pid
    | .polling, .error _ => childOver s.table (s.sup i).child
    | .stopping, .error _ => childOver s.table (s.sup i).child
    | .graced, .error _ => childOver s.table (s.sup i).child
    | .reaping, .error _ => childOver s.table (s.sup i).child
    | _, _ => true
  | _ => true

/-! ### The table -/

structure TableOk (t : ProcessTable) (fresh : ℕ) : Prop where
  range : ∀ q ∈ t, 0 < q.id ∧ q.id < 2 ^ 31
  ids : ∀ q ∈ t, ∀ r ∈ t, q.id = r.id → q = r
  births : ∀ q ∈ t, ∀ r ∈ t, q.birth = r.birth → q = r
  young : ∀ q ∈ t, q.birth < fresh

/-- What can become of a table: processes end and leave, new ones have a new birth. -/
def Ages (t : ProcessTable) (fresh : ℕ) (t' : ProcessTable) : Prop :=
  ∀ q ∈ t', fresh ≤ q.birth ∨ ∃ r ∈ t, r.birth = q.birth ∧ (q.running = true → r.running = true)

/-- A child has its entry, and nobody but the wallet waits for it. -/
def Listed (t : ProcessTable) (c : ChildHandle) : Prop := ∃ q ∈ t, q.id = c.id ∧ q.birth = c.birth ∧ q.ours = true

section Table

variable {t : ProcessTable} {fresh : ℕ}

theorem Ages.refl (t : ProcessTable) (fresh : ℕ) : Ages t fresh t := fun q hq => .inr ⟨q, hq, rfl, id⟩

theorem TableOk.filter (h : TableOk t fresh) (p : Process → Bool) : TableOk (t.filter p) fresh where
  range q hq := h.range q (List.mem_of_mem_filter hq)
  ids q hq r hr := h.ids q (List.mem_of_mem_filter hq) r (List.mem_of_mem_filter hr)
  births q hq r hr := h.births q (List.mem_of_mem_filter hq) r (List.mem_of_mem_filter hr)
  young q hq := h.young q (List.mem_of_mem_filter hq)

theorem Ages.filter (t : ProcessTable) (fresh : ℕ) (p : Process → Bool) : Ages t fresh (t.filter p) :=
  fun q hq => .inr ⟨q, List.mem_of_mem_filter hq, rfl, id⟩

theorem TableOk.cons (h : TableOk t fresh) {q : Process} (hfree : vacant t q.id = true) (hbirth : q.birth = fresh) :
    TableOk (q :: t) (fresh + 1) := by
  unfold vacant at hfree
  rw [Bool.and_eq_true, Bool.and_eq_true, decide_eq_true_eq, decide_eq_true_eq, List.all_eq_true] at hfree
  obtain ⟨⟨hpos, hlt⟩, hids⟩ := hfree
  have hid : ∀ r ∈ t, r.id ≠ q.id := fun r hr => of_decide_eq_true (hids r hr)
  have hnew : ∀ r ∈ t, r.birth ≠ q.birth := fun r hr => hbirth ▸ (h.young r hr).ne
  refine ⟨?_, ?_, ?_, ?_⟩
  · exact List.forall_mem_cons.mpr ⟨⟨hpos, hlt⟩, h.range⟩
  · intro r hr r' hr' heq
    rcases List.mem_cons.mp hr with rfl | hr <;> rcases List.mem_cons.mp hr' with rfl | hr'
    · rfl
    · exact absurd heq.symm (hid r' hr')
    · exact absurd heq (hid r ‹_›)
    · exact h.ids r hr r' hr' heq
  · intro r hr r' hr' heq
    rcases List.mem_cons.mp hr with rfl | hr <;> rcases List.mem_cons.mp hr' with rfl | hr'
    · rfl
    · exact absurd heq.symm (hnew r' hr')
    · exact absurd heq (hnew r ‹_›)
    · exact h.births r hr r' hr' heq
  · exact List.forall_mem_cons.mpr ⟨hbirth ▸ Nat.lt_succ_self _, fun r hr => Nat.lt_succ_of_lt (h.young r hr)⟩

theorem Ages.cons (t : ProcessTable) {fresh : ℕ} {q : Process} (hbirth : q.birth = fresh) : Ages t fresh (q :: t) := by
  intro r hr
  rcases List.mem_cons.mp hr with rfl | hr
  · exact .inl hbirth.ge
  · exact .inr ⟨r, hr, rfl, id⟩

/-- An alteration that leaves a process its id and its birth. -/
structure Mild (f : Process → Process) : Prop where
  id : ∀ q, (f q).id = q.id
  birth : ∀ q, (f q).birth = q.birth
  ours : ∀ q, (f q).ours = q.ours
  running : ∀ q, (f q).running = true → q.running = true

theorem Mild.guard {f : Process → Process} (hf : Mild f) (id : ℕ) : Mild fun q => if q.id = id then f q else q := by
  constructor <;> intro q <;> split
  · exact hf.id q
  · rfl
  · exact hf.birth q
  · rfl
  · exact hf.ours q
  · rfl
  · exact hf.running q
  · exact fun h => h

theorem TableOk.map (h : TableOk t fresh) {f : Process → Process} (hf : Mild f) : TableOk (t.map f) fresh := by
  refine ⟨?_, ?_, ?_, ?_⟩ <;> simp only [List.forall_mem_map]
  · intro q hq
    rw [hf.id]
    exact h.range q hq
  · intro q hq r hr heq
    rw [hf.id, hf.id] at heq
    exact congrArg f (h.ids q hq r hr heq)
  · intro q hq r hr heq
    rw [hf.birth, hf.birth] at heq
    exact congrArg f (h.births q hq r hr heq)
  · intro q hq
    rw [hf.birth]
    exact h.young q hq

theorem Ages.map (t : ProcessTable) (fresh : ℕ) {f : Process → Process} (hf : Mild f) : Ages t fresh (t.map f) := by
  intro q hq
  obtain ⟨r, hr, rfl⟩ := List.mem_map.mp hq
  exact .inr ⟨r, hr, (hf.birth r).symm, hf.running r⟩

theorem Listed.map {c : ChildHandle} (h : Listed t c) {f : Process → Process} (hf : Mild f) : Listed (t.map f) c := by
  obtain ⟨q, hq, hid, hbirth, hours⟩ := h
  exact ⟨f q, List.mem_map_of_mem hq, (hf.id q).trans hid, (hf.birth q).trans hbirth, (hf.ours q).trans hours⟩

theorem Listed.cons {c : ChildHandle} (h : Listed t c) (q : Process) : Listed (q :: t) c := by
  obtain ⟨r, hr, hc⟩ := h
  exact ⟨r, List.mem_cons_of_mem _ hr, hc⟩

theorem Listed.filter {c : ChildHandle} (h : Listed t c) {p : Process → Bool}
    (hp : ∀ q ∈ t, q.id = c.id → q.birth = c.birth → q.ours = true → p q = true) : Listed (t.filter p) c := by
  obtain ⟨q, hq, hid, hbirth, hours⟩ := h
  exact ⟨q, List.mem_filter.mpr ⟨hq, hp q hq hid hbirth hours⟩, hid, hbirth, hours⟩

/-- The entry under a child's id is the child's. -/
theorem Listed.birth_eq {c : ChildHandle} (h : Listed t c) (ht : TableOk t fresh) {q : Process} (hq : q ∈ t)
    (hid : q.id = c.id) : q.birth = c.birth := by
  obtain ⟨r, hr, hrid, hbirth, -⟩ := h
  rw [ht.ids q hq r hr (hid.trans hrid.symm), hbirth]

theorem signedPid_small {pid : ℕ} (h : pid < 2 ^ 31) : signedPid pid = pid := by
  unfold signedPid
  rw [Int.bmod_def]
  omega

/-- **`kill` of an id that a process can have reaches that process alone.** -/
theorem kill_in_range {group pid : ℕ} (hpos : 0 < pid) (hlt : pid < 2 ^ 31) :
    kill t group pid = t.filter fun q => decide (q.id = pid) && q.permitted := by
  unfold kill addressed
  refine List.filter_congr fun q _ => ?_
  rw [signedPid_small hlt, if_pos (by omega)]
  simp only [Nat.cast_inj]

/-- Where a check does not find the process with the id alive, none is running, exactly if whoever
has the id and is running may be signalled. -/
theorem judgeable_iff (ht : TableOk t fresh) (group pid : ℕ) :
    judgeable t pid = true ↔ (isAlive t group pid = false → ∀ q ∈ t, q.id = pid → q.running = false) := by
  unfold judgeable
  simp only [List.all_eq_true, Bool.or_eq_true, decide_eq_true_eq, Bool.not_eq_true', or_assoc]
  by_cases hrange : 0 < pid ∧ pid < 2 ^ 31
  · have hreach : isAlive t group pid = false ↔ ∀ q ∈ t, q.id = pid → q.permitted = false := by
      unfold isAlive
      rw [kill_in_range hrange.1 hrange.2, Bool.not_eq_false', List.isEmpty_iff, List.filter_eq_nil_iff]
      simp only [Bool.and_eq_true, decide_eq_true_eq, not_and, Bool.not_eq_true]
    rw [hreach]
    constructor
    · intro h hdead q hq hid
      rcases h q hq with hne | hover | hperm
      · exact absurd hid hne
      · exact hover
      · rw [hdead q hq hid] at hperm
        cases hperm
    · intro h q hq
      by_cases hid : q.id = pid
      · refine .inr ?_
        by_cases hperm : q.permitted = true
        · exact .inr hperm
        · refine .inl (h (fun r hr hrid => ?_) q hq hid)
          rw [ht.ids r hr q hq (hrid.trans hid.symm)]
          exact Bool.not_eq_true _ ▸ hperm
      · exact .inl hid
  · have hnone : ∀ q ∈ t, q.id ≠ pid := fun q hq hid => hrange (hid ▸ ht.range q hq)
    exact ⟨fun _ _ q hq hid => absurd hid (hnone q hq), fun _ q hq => .inl (hnone q hq)⟩

theorem childOver_iff {c : Option ChildHandle} :
    childOver t c = true ↔ ∀ d, c = some d → ∀ q ∈ t, q.birth = d.birth → q.running = false := by
  unfold childOver
  simp only [List.all_eq_true, Bool.or_eq_true, decide_eq_true_eq, Bool.not_eq_true']
  constructor
  · rintro h d rfl q hq hbirth
    exact (h q hq).resolve_left fun hne => hne (congrArg some hbirth.symm)
  · intro h q hq
    cases c with
    | none => exact .inl nofun
    | some d =>
      by_cases hbirth : q.birth = d.birth
      · exact .inr (h d rfl q hq hbirth)
      · exact .inl fun heq => hbirth (Option.some_inj.mp heq).symm

/-- A child that has been found ended is not running. -/
theorem waitStatus_some (ht : TableOk t fresh) {c : Option ChildHandle} {code : ExitCode}
    (hlisted : ∀ d, c = some d → Listed t d) (h : waitStatus t c = some code) :
    ∀ d, c = some d → ∀ q ∈ t, q.birth = d.birth → q.running = false := by
  rintro d rfl q hq hbirth
  unfold waitStatus at h
  rw [Option.bind_some, Option.bind_eq_some_iff] at h
  obtain ⟨r, hfind, hexit⟩ := h
  have hr : r ∈ t := List.mem_of_find?_eq_some hfind
  have hid : r.id = d.id := by simpa using List.find?_some hfind
  have heq : q = r := ht.births q hq r hr (hbirth.trans ((hlisted d rfl).birth_eq ht hr hid).symm)
  unfold Process.running
  rw [heq, hexit]
  rfl

end Table

/-! ### What a supervisor may count on -/

/-- The node has been started and has not been waited for. -/
def Phase.minding : Phase → Bool
  | .watching => true
  | .polling => true
  | .stopping => true
  | .terminating => true
  | .graced => true
  | .killing => true
  | .reaping => true
  | _ => false

/-- The node has not been started. -/
def Phase.early (ph : Phase) : Bool := !ph.minding && decide (ph ≠ .ended)

/-- The orphan that `reclaim_orphan` is dealing with. -/
def Phase.orphan : Phase → Option ℕ
  | .checking pid => some pid
  | .asking pid => some pid
  | .waiting pid => some pid
  | _ => none

structure SupOk (t : ProcessTable) (fresh : ℕ) (v : Supervisor) : Prop where
  young : ∀ c, v.child = some c → c.birth < fresh
  minded : v.phase.minding = true → ∃ c, v.child = some c ∧ Listed t c
  childless : v.phase.early = true → v.child = none
  orphan : ∀ pid, v.phase.orphan = some pid → ∃ raw, v.raw = some raw ∧ denoted raw = some pid
  unread : v.phase = .idle ∨ v.phase = .reading → v.raw = none
  lasting : v.phase ≠ .ended → v.state.isOver = false

structure Coherent (s : NodeSystem) : Prop where
  table : TableOk s.table s.fresh
  sups : ∀ i, SupOk s.table s.fresh (s.sup i)
  births : ∀ i j c d, (s.sup i).child = some c → (s.sup j).child = some d → c.birth = d.birth → i = j

/-- Every supervisor keeps its promise. -/
def Good (s : NodeSystem) : Prop := ∀ i, Fair s.table (s.sup i)

/-- A step after which supervisor `i` is `v` and the others are as before. -/
structure Moves (s : NodeSystem) (i : ℕ) (s' : NodeSystem) (v : Supervisor) : Prop where
  sup : s'.sup = Function.update s.sup i v
  table : TableOk s'.table s'.fresh
  fresh : s.fresh ≤ s'.fresh
  listed : ∀ j ≠ i, ∀ c, (s.sup j).child = some c → Listed s.table c → Listed s'.table c
  ages : Ages s.table s.fresh s'.table
  ok : SupOk s'.table s'.fresh v
  child : ∀ c, v.child = some c → (s.sup i).child = some c ∨ s.fresh ≤ c.birth

section Frames

variable {s s' : NodeSystem} {i : ℕ} {v : Supervisor} {t t' : ProcessTable} {fresh fresh' : ℕ}

theorem SupOk.mono (h : SupOk t fresh v) (hfresh : fresh ≤ fresh')
    (hlisted : ∀ c, v.child = some c → Listed t c → Listed t' c) : SupOk t' fresh' v where
  young c hc := (h.young c hc).trans_le hfresh
  minded hph := by
    obtain ⟨c, hc, hl⟩ := h.minded hph
    exact ⟨c, hc, hlisted c hc hl⟩
  childless := h.childless
  orphan := h.orphan
  unread := h.unread
  lasting := h.lasting

/-- A promise outlasts what the table goes through. -/
theorem Fair.ages (h : Fair t v) (hages : Ages t fresh t') (hyoung : ∀ c, v.child = some c → c.birth < fresh) :
    Fair t' v where
  gone hover c hc q hq hbirth := by
    rcases hages q hq with hnew | ⟨r, hr, hsame, hrun⟩
    · exact absurd (hyoung c hc) (by omega)
    · have hdead := h.gone hover c hc r hr (hsame.trans hbirth)
      by_contra hne
      rw [hrun (Bool.not_eq_false _ ▸ hne)] at hdead
      cases hdead
  reclaimed := h.reclaimed

theorem Moves.coherent (h : Coherent s) (hm : Moves s i s' v) : Coherent s' where
  table := hm.table
  sups j := by
    rw [hm.sup, Function.update_apply]
    split
    · exact hm.ok
    · rename_i hj
      exact (h.sups j).mono hm.fresh (hm.listed j hj)
  births j k c d hc hd heq := by
    rw [hm.sup, Function.update_apply] at hc hd
    split at hc <;> split at hd <;> rename_i hj hk
    · rw [hj, hk]
    · have hyoung := (h.sups k).young d hd
      rcases hm.child c hc with hc | hc
      · exact hj ▸ h.births i k c d hc hd heq
      · omega
    · have hyoung := (h.sups j).young c hc
      rcases hm.child d hd with hd | hd
      · exact hk ▸ h.births j i c d hc hd heq
      · omega
    · exact h.births j k c d hc hd heq

theorem Moves.good_iff (h : Coherent s) (hG : Good s) (hm : Moves s i s' v) : Good s' ↔ Fair s'.table v := by
  constructor
  · intro hG'
    have hi := hG' i
    rwa [hm.sup, Function.update_self] at hi
  · intro hv j
    rw [hm.sup, Function.update_apply]
    split
    · exact hv
    · exact (hG j).ages hm.ages (h.sups j).young

theorem moves_put (h : Coherent s) (hv : SupOk s.table s.fresh v) (hchild : v.child = (s.sup i).child) :
    Moves s i (s.put i v) v where
  sup := rfl
  table := h.table
  fresh := le_rfl
  listed _ _ _ _ hl := hl
  ages := Ages.refl _ _
  ok := hv
  child _ hc := .inl (hchild ▸ hc)

theorem moves_stay (h : Coherent s) (i : ℕ) : Moves s i s (s.sup i) where
  sup := (Function.update_eq_self i s.sup).symm
  table := h.table
  fresh := le_rfl
  listed _ _ _ _ hl := hl
  ages := Ages.refl _ _
  ok := h.sups i
  child _ hc := .inl hc

theorem SupOk.goto (h : SupOk t fresh v) {ph : Phase} (hlasting : v.phase ≠ .ended)
    (hminding : ph.minding = true → v.phase.minding = true) (hearly : ph.early = true → v.phase.early = true)
    (horphan : ∀ pid, ph.orphan = some pid → v.phase.orphan = some pid)
    (hunread : ph = .idle ∨ ph = .reading → v.phase = .idle) : SupOk t fresh { v with phase := ph } where
  young := h.young
  minded hph := h.minded (hminding hph)
  childless hph := h.childless (hearly hph)
  orphan pid hpid := h.orphan pid (horphan pid hpid)
  unread hph := h.unread (.inl (hunread hph))
  lasting _ := h.lasting hlasting

theorem SupOk.quit (h : SupOk t fresh v) (st : NodeState) : SupOk t fresh { v with phase := .ended, state := st } where
  young := h.young
  minded hph := absurd hph Bool.false_ne_true
  childless hph := absurd hph Bool.false_ne_true
  orphan pid hpid := absurd hpid nofun
  unread hph := by rcases hph with hph | hph <;> cases hph
  lasting hph := absurd rfl hph

/-- Nothing is promised while the node may run. -/
theorem fair_of_lasting (hstate : v.state.isOver = false) (hremoving : v.phase ≠ .removing)
    (hspawning : v.phase ≠ .spawning) : Fair t v where
  gone hover := absurd hover (by simp [hstate])
  reclaimed hph := absurd hph (not_or.mpr ⟨hremoving, hspawning⟩)

theorem fair_of_childless {st : NodeState} (hchild : v.child = none) :
    Fair t { v with phase := .ended, state := st } where
  gone _ c hc := by
    dsimp only at hc
    rw [hchild] at hc
    cases hc
  reclaimed hph := by rcases hph with hph | hph <;> cases hph

end Frames

/-! ### One call -/

/-- A call changes its own supervisor only, and is sound exactly if it signals its own only and
the supervisor keeps its promise. -/
def Accounted (s : NodeSystem) (i : ℕ) (a : Answer) : Prop :=
  ∃ v, Moves s i (s.call i a) v ∧ (Fair s.table (s.sup i) →
    (sound s (.call i a) = true ↔ OwnSignals s (.call i a) ∧ Fair (s.call i a).table v))

section Calls

attribute [local simp] NodeSystem.call NodeSystem.poll NodeSystem.check signals sound

variable {s : NodeSystem} {i : ℕ} {a : Answer}

theorem ownSignals_nil {e : NodeEvent} (h : signals s e = []) : OwnSignals s e := by
  intro i a _ q hq
  rw [h] at hq
  cases hq

theorem ownSignals_child {e : NodeEvent} (h : Coherent s) (hph : (s.sup i).phase.minding = true)
    (he : ∀ j a, e = .call j a → j = i)
    (hsig : signals s e = (s.sup i).child.toList.flatMap fun c => kill s.table s.group c.id) : OwnSignals s e := by
  intro j b hj q hq
  rw [he j b hj]
  obtain ⟨c, hc, hl⟩ := (h.sups i).minded hph
  refine .inr ⟨c, hc, ?_⟩
  have hrange : 0 < c.id ∧ c.id < 2 ^ 31 := by
    obtain ⟨r, hr, hrid, -⟩ := hl
    exact hrid ▸ h.table.range r hr
  rw [hsig, hc, Option.toList_some, List.flatMap_singleton, kill_in_range hrange.1 hrange.2, List.mem_filter,
    Bool.and_eq_true, decide_eq_true_eq] at hq
  exact hl.birth_eq h.table hq.1 hq.2.1

/-- A call without a condition. -/
theorem Accounted.harmless {s' : NodeSystem} {v : Supervisor} (hcall : s.call i a = s') (hm : Moves s i s' v)
    (hsound : sound s (.call i a) = true) (hown : OwnSignals s (.call i a))
    (hfair : Fair s.table (s.sup i) → Fair s'.table v) : Accounted s i a := by
  subst hcall
  exact ⟨v, hm, fun h => ⟨fun _ => ⟨hown, hfair h⟩, fun _ => hsound⟩⟩

theorem accounted_stay (h : Coherent s) (hcall : s.call i a = s) (hsound : sound s (.call i a) = true)
    (hsig : signals s (.call i a) = []) : Accounted s i a :=
  .harmless hcall (moves_stay h i) hsound (ownSignals_nil hsig) id

/-- A call that only goes on to a phase in which nothing is promised. -/
theorem accounted_put {v : Supervisor} (h : Coherent s) (hcall : s.call i a = s.put i v)
    (hv : SupOk s.table s.fresh v) (hchild : v.child = (s.sup i).child)
    (hph : v.phase ≠ .ended ∧ v.phase ≠ .removing ∧ v.phase ≠ .spawning)
    (hsound : sound s (.call i a) = true) (hown : OwnSignals s (.call i a)) : Accounted s i a :=
  .harmless hcall (moves_put h hv hchild) hsound hown fun _ => fair_of_lasting (hv.lasting hph.1) hph.2.1 hph.2.2

theorem accounted_goto {ph : Phase} (h : Coherent s) (hcall : s.call i a = s.goto i ph)
    (hv : SupOk s.table s.fresh { s.sup i with phase := ph }) (hph : ph ≠ .ended ∧ ph ≠ .removing ∧ ph ≠ .spawning)
    (hsound : sound s (.call i a) = true) (hown : OwnSignals s (.call i a)) : Accounted s i a :=
  accounted_put h hcall hv rfl hph hsound hown

theorem accounted_reading (h : Coherent s) (hx : (s.sup i).phase = .reading) : Accounted s i a := by
  have hok := h.sups i
  have hraw : (s.sup i).raw = none := hok.unread (.inr hx)
  have hlasting := hok.lasting (by rw [hx]; decide)
  have hsound : sound s (.call i a) = true := by simp only [sound, hx]
  have hsig : signals s (.call i a) = [] := by simp only [signals, hx]
  have hspawn : SupOk s.table s.fresh { s.sup i with phase := .spawning } := by
    refine hok.goto ?_ ?_ ?_ ?_ ?_ <;> rw [hx] <;> decide
  have hfair : Fair s.table { s.sup i with phase := .spawning } := by
    refine ⟨fun hover => ?_, fun _ raw hr => ?_⟩
    · exact absurd hover (by simp [hlasting])
    · exact absurd (hraw.symm.trans hr) nofun
  have hnone : s.call i a = s.goto i .spawning → Accounted s i a := fun hcall =>
    .harmless hcall (moves_put h hspawn rfl) hsound (ownSignals_nil hsig) fun _ => hfair
  have hread : ∀ raw, s.lock = some raw → (∀ e, a ≠ .error e) → Accounted s i a := by
    intro raw hlock hne
    set v : Supervisor := { s.sup i with
      raw := some raw
      phase := match denoted raw with
        | some pid => .checking pid
        | none => .removing } with hv
    have hcall : s.call i a = s.put i v := by
      cases a with
      | error e => exact absurd rfl (hne e)
      | _ => simp only [NodeSystem.call, hx, hlock, hv]
    have hchild : (s.sup i).child = none := hok.childless (by rw [hx]; decide)
    have hvok : SupOk s.table s.fresh v := by
      refine ⟨hok.young, fun hph => ?_, fun _ => hchild, fun pid hpid => ?_, fun hph => ?_, fun _ => hlasting⟩
      · rw [hv] at hph
        dsimp only at hph
        split at hph <;> cases hph
      · refine ⟨raw, rfl, ?_⟩
        rw [hv] at hpid
        dsimp only at hpid
        split at hpid
        · rename_i heq
          rw [heq, ← hpid]
          rfl
        · cases hpid
      · rw [hv] at hph
        dsimp only at hph
        split at hph <;> rcases hph with hph | hph <;> cases hph
    refine .harmless hcall (moves_put h hvok rfl) hsound (ownSignals_nil hsig) fun _ => ⟨fun hover => ?_, ?_⟩
    · exact absurd hover (by simp [hv, hlasting])
    · rintro hph raw' hr q - hq
      cases hr
      rw [hv] at hph
      dsimp only at hph
      rw [hq] at hph
      rcases hph with hph | hph <;> cases hph
  rcases hlock : s.lock with _ | raw
  · exact hnone (by cases a <;> simp only [NodeSystem.call, hx, hlock])
  · cases a with
    | error e => exact hnone (by simp only [NodeSystem.call, hx])
    | _ => exact hread raw hlock nofun

/-- A check of the orphan. -/
theorem accounted_check {pid : ℕ} {ph : Phase} (h : Coherent s) (hcall : s.call i a = s.check i pid ph)
    (hx : (s.sup i).phase = .checking pid ∨ (s.sup i).phase = .waiting pid)
    (hph : ph = .asking pid ∨ ph = .waiting pid)
    (hsound : sound s (.call i a) = judgeable s.table pid) (hsig : signals s (.call i a) = []) : Accounted s i a := by
  have hok := h.sups i
  have horphan : (s.sup i).phase.orphan = some pid := by rcases hx with hx | hx <;> rw [hx] <;> rfl
  have hlasting := hok.lasting (by rcases hx with hx | hx <;> rw [hx] <;> nofun)
  have hchild : (s.sup i).child = none := hok.childless (by rcases hx with hx | hx <;> rw [hx] <;> rfl)
  obtain ⟨raw, hraw, hdenoted⟩ := hok.orphan pid horphan
  set v : Supervisor := { s.sup i with
    phase := if isAlive s.table s.group pid then ph else .removing, lastCheck := s.table } with hv
  have hvph : v.phase = if isAlive s.table s.group pid then ph else .removing := rfl
  have hvok : SupOk s.table s.fresh v := by
    refine ⟨hok.young, fun hmind => ?_, fun _ => hchild, fun p hp => ?_, fun hunread => ?_, fun _ => hlasting⟩
    · rw [hvph] at hmind
      rcases hph with rfl | rfl <;> split at hmind <;> cases hmind
    · refine ⟨raw, hraw, ?_⟩
      rw [hvph] at hp
      rcases hph with rfl | rfl <;> split at hp <;> cases hp <;> exact hdenoted
    · rw [hvph] at hunread
      rcases hph with rfl | rfl <;> split at hunread <;> rcases hunread with hunread | hunread <;> cases hunread
  have hfair : Fair s.table v ↔ judgeable s.table pid = true := by
    rw [judgeable_iff h.table s.group pid]
    constructor
    · intro hf halive q hq hid
      refine hf.reclaimed (.inl ?_) raw hraw q hq (hid ▸ hdenoted)
      rw [hvph, halive]
      rfl
    · intro hdead
      refine ⟨fun hover => absurd hover (by simp [hv, hlasting]), fun hgone raw' hr q hq hid => ?_⟩
      have halive : isAlive s.table s.group pid = false := by
        by_contra hne
        rw [hvph, if_pos (Bool.not_eq_false _ ▸ hne)] at hgone
        rcases hph with rfl | rfl <;> rcases hgone with hgone | hgone <;> cases hgone
      cases hraw.symm.trans hr
      exact hdead halive q hq (Option.some_inj.mp (hid.symm.trans hdenoted))
  unfold Accounted
  rw [hcall]
  refine ⟨v, moves_put h hvok rfl, fun _ => ?_⟩
  rw [hsound]
  exact ⟨fun hj => ⟨ownSignals_nil hsig, hfair.mpr hj⟩, fun hj => hfair.mp hj.2⟩

theorem accounted_asking {pid : ℕ} (h : Coherent s) (hx : (s.sup i).phase = .asking pid) : Accounted s i a := by
  have hok := h.sups i
  have hcall : s.call i a = s.goto i (.waiting pid) := by simp only [NodeSystem.call, hx]
  have hchild : (s.sup i).child = none := hok.childless (by rw [hx]; rfl)
  obtain ⟨raw, hraw, hdenoted⟩ := hok.orphan pid (by rw [hx]; rfl)
  have hv : SupOk s.table s.fresh { s.sup i with phase := .waiting pid } := by
    refine hok.goto ?_ ?_ ?_ ?_ ?_ <;> rw [hx] <;> simp [Phase.minding, Phase.early, Phase.orphan]
  have hfair : Fair s.table { s.sup i with phase := .waiting pid } := fair_of_lasting (hv.lasting nofun) nofun nofun
  unfold Accounted
  rw [hcall]
  refine ⟨_, moves_put h hv rfl, fun _ => ?_⟩
  have hsound : sound s (.call i a) = (decide (0 < pid ∧ pid < 2 ^ 31) || (kill s.table s.group pid).isEmpty) := by
    simp only [sound, hx]
  have hsig : signals s (.call i a) = kill s.table s.group pid := by simp only [signals, hx]
  rw [hsound, Bool.or_eq_true, decide_eq_true_eq, List.isEmpty_iff]
  constructor
  · rintro (⟨hpos, hlt⟩ | hnil)
    · refine ⟨?_, hfair⟩
      rintro j b ⟨⟩ q hq
      rw [hsig, kill_in_range hpos hlt, List.mem_filter, Bool.and_eq_true, decide_eq_true_eq] at hq
      exact .inl ⟨raw, hraw, hq.2.1 ▸ hdenoted⟩
    · exact ⟨ownSignals_nil (hsig.trans hnil), hfair⟩
  · rintro ⟨hown, -⟩
    by_contra hne
    obtain ⟨hrange, hnil⟩ := not_or.mp hne
    obtain ⟨q, hq⟩ := List.exists_mem_of_ne_nil _ hnil
    -- who is reached has an id, and the text does not denote it
    rcases hown i a rfl q (hsig ▸ hq) with ⟨raw', hraw', hid⟩ | ⟨c, hc, -⟩
    · cases hraw.symm.trans hraw'
      have hpid : pid = q.id := Option.some_inj.mp (hdenoted.symm.trans hid)
      exact hrange (hpid ▸ h.table.range q (List.mem_of_mem_filter hq))
    · cases hchild.symm.trans hc

theorem accounted_waiting {pid : ℕ} (h : Coherent s) (hx : (s.sup i).phase = .waiting pid) : Accounted s i a := by
  by_cases ha : a = .late
  · have hcall : s.call i a = s.quit i (.failed (orphanMessage pid s.lockPath)) := by
      simp only [NodeSystem.call, hx, if_pos ha]
    exact .harmless hcall (moves_put h ((h.sups i).quit _) rfl) (by simp only [sound, hx, ha]; rfl)
      (ownSignals_nil (by simp only [signals, hx]))
      fun _ => fair_of_childless ((h.sups i).childless (by rw [hx]; rfl))
  · refine accounted_check h ?_ (.inr hx) (.inr rfl) ?_ (by simp only [signals, hx])
    · simp only [NodeSystem.call, hx, if_neg ha]
    · simp only [sound, hx, decide_eq_false ha, Bool.false_or]

theorem accounted_removing (h : Coherent s) (hx : (s.sup i).phase = .removing) : Accounted s i a := by
  have hcall : s.call i a = { s.goto i .spawning with lock := if a = .ok then none else s.lock } := by
    simp only [NodeSystem.call, hx]
  have hv : SupOk s.table s.fresh { s.sup i with phase := .spawning } := by
    refine (h.sups i).goto ?_ ?_ ?_ ?_ ?_ <;> rw [hx] <;> decide
  have hm := moves_put h hv rfl
  refine .harmless hcall ⟨hm.sup, hm.table, hm.fresh, hm.listed, hm.ages, hm.ok, hm.child⟩
    (by simp only [sound, hx]) (ownSignals_nil (by simp only [signals, hx])) fun hf => ⟨hf.gone, fun _ => ?_⟩
  exact hf.reclaimed (.inl hx)

theorem accounted_spawning (h : Coherent s) (hx : (s.sup i).phase = .spawning) : Accounted s i a := by
  have hok := h.sups i
  have hchild : (s.sup i).child = none := hok.childless (by rw [hx]; rfl)
  have hsound : sound s (.call i a) = true := by simp only [sound, hx]
  have hsig : signals s (.call i a) = [] := by simp only [signals, hx]
  cases a with
  | error message =>
    have hcall : s.call i (.error message) = s.quit i (.failed message) := by simp only [NodeSystem.call, hx]
    exact .harmless hcall (moves_put h (hok.quit _) rfl) hsound (ownSignals_nil hsig) fun _ => fair_of_childless hchild
  | spawned id =>
    by_cases hfree : vacant s.table id = true
    · have hcall : s.call i (.spawned id) =
          { s.put i { s.sup i with phase := .watching, state := .running id, child := some ⟨id, s.fresh⟩ } with
            table := ⟨id, s.group, true, none, true, s.fresh⟩ :: s.table
            fresh := s.fresh + 1 } := by
        simp only [NodeSystem.call, hx, if_pos hfree]
      refine .harmless hcall ⟨rfl, h.table.cons hfree rfl, Nat.le_succ _, fun _ _ _ _ hl => hl.cons _,
        Ages.cons _ rfl, ?_, ?_⟩ hsound (ownSignals_nil hsig) fun _ => fair_of_lasting rfl nofun nofun
      · refine ⟨?_, fun _ => ⟨_, rfl, _, List.mem_cons_self .., rfl, rfl, rfl⟩, nofun, nofun, ?_, fun _ => rfl⟩
        · rintro c ⟨⟩
          exact Nat.lt_succ_self _
        · rintro (hph | hph) <;> cases hph
      · rintro c ⟨⟩
        exact .inr le_rfl
    · exact accounted_stay h (by simp only [NodeSystem.call, hx, if_neg hfree]) hsound hsig
  | ok => exact accounted_stay h (by simp only [NodeSystem.call, hx]) hsound hsig
  | late => exact accounted_stay h (by simp only [NodeSystem.call, hx]) hsound hsig

theorem accounted_watching (h : Coherent s) (hx : (s.sup i).phase = .watching) : Accounted s i a := by
  have hok := h.sups i
  have hsound : sound s (.call i a) = true := by simp only [sound, hx]
  have hown : OwnSignals s (.call i a) := ownSignals_nil (by simp only [signals, hx])
  have hgoto : ∀ ph, ph = .stopping ∨ ph = .polling → SupOk s.table s.fresh { s.sup i with phase := ph } := by
    rintro ph (rfl | rfl) <;> refine hok.goto ?_ ?_ ?_ ?_ ?_ <;> rw [hx] <;> decide
  by_cases hpending : 0 < (s.sup i).pending
  · have hstop := hgoto .stopping (.inl rfl)
    have hcall : s.call i a =
        s.put i { s.sup i with phase := .stopping, pending := (s.sup i).pending - 1 } := by
      simp only [NodeSystem.call, hx, if_pos hpending]
    exact accounted_put h hcall
      ⟨hstop.young, hstop.minded, hstop.childless, hstop.orphan, hstop.unread, hstop.lasting⟩ rfl
      ⟨nofun, nofun, nofun⟩ hsound hown
  · have hcall : s.call i a = s.goto i (if (s.sup i).connected then .polling else .stopping) := by
      simp only [NodeSystem.call, hx, if_neg hpending]
    refine accounted_goto h hcall (hgoto _ ?_) ?_ hsound hown
    · split
      · exact .inr rfl
      · exact .inl rfl
    · split <;> exact ⟨nofun, nofun, nofun⟩

/-- **A check of the child is sound exactly if it does not fail while the child is running.** -/
theorem accounted_poll {done : ExitCode → NodeState} {failed : Text → NodeState} {again : Phase} (h : Coherent s)
    (hcall : s.call i a = s.poll i a done failed again) (hmind : (s.sup i).phase.minding = true)
    (hfailed : ∀ e, (failed e).isOver = true)
    (hagain : SupOk s.table s.fresh { s.sup i with phase := again }) (hmore : again.minding = true)
    (hsound : sound s (.call i a) = match a with
      | .error _ => childOver s.table (s.sup i).child
      | _ => true)
    (hsig : signals s (.call i a) = []) : Accounted s i a := by
  have hok := h.sups i
  obtain ⟨c, hc, hl⟩ := hok.minded hmind
  have hown : OwnSignals s (.call i a) := ownSignals_nil hsig
  by_cases herror : ∃ e, a = .error e
  · obtain ⟨e, rfl⟩ := herror
    unfold Accounted
    rw [hcall]
    refine ⟨_, moves_put h (hok.quit _) rfl, fun _ => ?_⟩
    rw [hsound]
    dsimp only
    rw [childOver_iff]
    exact ⟨fun hover => ⟨hown, fun _ => hover, fun hph => by rcases hph with hph | hph <;> cases hph⟩,
      fun hf => hf.2.gone (hfailed _)⟩
  · have htrue : sound s (.call i a) = true := by
      rw [hsound]
      cases a with
      | error e => exact absurd ⟨e, rfl⟩ herror
      | _ => rfl
    have hpoll : s.poll i a done failed again = match waitStatus s.table (s.sup i).child with
        | some code => { s.quit i (done code) with table := reap s.table (s.sup i).child }
        | none => s.goto i again := by
      cases a with
      | error e => exact absurd ⟨e, rfl⟩ herror
      | _ => rfl
    rcases hwait : waitStatus s.table (s.sup i).child with _ | code <;> rw [hwait] at hpoll <;> dsimp only at hpoll
    · refine accounted_goto h (hcall.trans hpoll) hagain ?_ htrue hown
      refine ⟨?_, ?_, ?_⟩ <;> rintro rfl <;> cases hmore
    · have hquit := hok.quit (done code)
      have hother : ∀ j ≠ i, ∀ d, (s.sup j).child = some d → Listed s.table d →
          Listed (reap s.table (s.sup i).child) d := by
        intro j hj d hd hld
        refine hld.filter fun q hq hid hbirth _ => decide_eq_true fun heq => hj ?_
        rw [hc, Option.map_some, Option.some_inj] at heq
        exact h.births j i d c hd hc (hbirth.symm.trans (hl.birth_eq h.table hq heq.symm))
      refine .harmless (hcall.trans hpoll)
        ⟨rfl, h.table.filter _, le_rfl, hother, Ages.filter _ _ _, ?_, fun _ hd => .inl hd⟩ htrue hown fun _ =>
            ⟨fun _ d hd q hq hbirth => ?_, fun hph => by rcases hph with hph | hph <;> cases hph⟩
      · exact ⟨hquit.young, fun hph => absurd hph Bool.false_ne_true, hquit.childless, hquit.orphan, hquit.unread,
          hquit.lasting⟩
      · refine waitStatus_some h.table (fun d hd => ?_) hwait d hd q (List.mem_of_mem_filter hq) hbirth
        cases hc.symm.trans hd
        exact hl

theorem accounted_terminating (h : Coherent s) (hx : (s.sup i).phase = .terminating) : Accounted s i a := by
  have hok := h.sups i
  have hcall : s.call i a =
      s.goto i (if (s.sup i).child.any fun c => isAlive s.table s.group c.id then .graced else .killing) := by
    simp only [NodeSystem.call, hx]
  refine accounted_goto h hcall ?_ ?_ (by simp only [sound, hx])
    (ownSignals_child h (by rw [hx]; rfl) (fun j b hj => by cases hj; rfl) (by simp only [signals, hx]))
  · split <;> refine hok.goto ?_ ?_ ?_ ?_ ?_ <;> rw [hx] <;> decide
  · split <;> exact ⟨nofun, nofun, nofun⟩

theorem accounted_killing (h : Coherent s) (hx : (s.sup i).phase = .killing) : Accounted s i a := by
  have hok := h.sups i
  have hcall : s.call i a = s.goto i .reaping := by simp only [NodeSystem.call, hx]
  refine accounted_goto h hcall ?_ ⟨nofun, nofun, nofun⟩ (by simp only [sound, hx])
    (ownSignals_child h (by rw [hx]; rfl) (fun j b hj => by cases hj; rfl) (by simp only [signals, hx]))
  refine hok.goto ?_ ?_ ?_ ?_ ?_ <;> rw [hx] <;> decide

/-- **Every call is accounted for.** -/
theorem accounted_call (h : Coherent s) (i : ℕ) (a : Answer) : Accounted s i a := by
  have hok := h.sups i
  rcases hx : (s.sup i).phase with _ | _ | pid | pid | pid | _ | _ | _ | _ | _ | _ | _ | _ | _ | _
  case reading => exact accounted_reading h hx
  case checking =>
    exact accounted_check h (by simp only [NodeSystem.call, hx]) (.inl hx) (.inl rfl) (by simp only [sound, hx])
      (by simp only [signals, hx])
  case asking => exact accounted_asking h hx
  case waiting => exact accounted_waiting h hx
  case removing => exact accounted_removing h hx
  case spawning => exact accounted_spawning h hx
  case watching => exact accounted_watching h hx
  case polling =>
    have hcall : s.call i a = s.poll i a .exited .failed .watching := by simp only [NodeSystem.call, hx]
    refine accounted_poll h hcall (by rw [hx]; rfl) (fun _ => rfl) ?_ rfl
      (by simp only [sound, hx]; cases a <;> rfl) (by simp only [signals, hx])
    refine hok.goto ?_ ?_ ?_ ?_ ?_ <;> rw [hx] <;> decide
  case stopping =>
    have hcall : s.call i a = s.poll i a (fun _ => .stopped) (fun _ => .stopped) .terminating := by
      simp only [NodeSystem.call, hx]
    refine accounted_poll h hcall (by rw [hx]; rfl) (fun _ => rfl) ?_ rfl
      (by simp only [sound, hx]; cases a <;> rfl) (by simp only [signals, hx])
    refine hok.goto ?_ ?_ ?_ ?_ ?_ <;> rw [hx] <;> decide
  case terminating => exact accounted_terminating h hx
  case graced =>
    by_cases ha : a = .late
    · have hcall : s.call i a = s.goto i .killing := by simp only [NodeSystem.call, hx, if_pos ha]
      refine accounted_goto h hcall ?_ ⟨nofun, nofun, nofun⟩ (by simp only [sound, hx, ha])
        (ownSignals_nil (by simp only [signals, hx]))
      refine hok.goto ?_ ?_ ?_ ?_ ?_ <;> rw [hx] <;> decide
    · have hcall : s.call i a = s.poll i a (fun _ => .stopped) (fun _ => .stopped) .graced := by
        simp only [NodeSystem.call, hx, if_neg ha]
      refine accounted_poll h hcall (by rw [hx]; rfl) (fun _ => rfl) ?_ rfl
        (by simp only [sound, hx]; cases a <;> rfl) (by simp only [signals, hx])
      refine hok.goto ?_ ?_ ?_ ?_ ?_ <;> rw [hx] <;> decide
  case killing => exact accounted_killing h hx
  case reaping =>
    have hcall : s.call i a = s.poll i a (fun _ => .stopped) (fun _ => .stopped) .reaping := by
      simp only [NodeSystem.call, hx]
    refine accounted_poll h hcall (by rw [hx]; rfl) (fun _ => rfl) ?_ rfl
      (by simp only [sound, hx]; cases a <;> rfl) (by simp only [signals, hx])
    refine hok.goto ?_ ?_ ?_ ?_ ?_ <;> rw [hx] <;> decide
  all_goals
    exact accounted_stay h (by simp only [NodeSystem.call, hx]) (by simp only [sound, hx])
      (by simp only [signals, hx])

/-! ### Every step -/

theorem mild_exit (code : ExitCode) : Mild fun q => { q with exit := some (q.exit.getD code) } :=
  ⟨fun _ => rfl, fun _ => rfl, fun _ => rfl, fun _ h => by cases h⟩

theorem mild_group (group : ℕ) : Mild fun q => { q with group := group } :=
  ⟨fun _ => rfl, fun _ => rfl, fun _ => rfl, fun _ h => h⟩

theorem mild_permitted (permitted : Bool) : Mild fun q => { q with permitted := permitted } :=
  ⟨fun _ => rfl, fun _ => rfl, fun _ => rfl, fun _ h => h⟩

/-- A step that only the table goes through. -/
theorem world_step {t : ProcessTable} {fresh : ℕ} {lock : Option Text} (h : Coherent s) (ht : TableOk t fresh)
    (hfresh : s.fresh ≤ fresh) (hages : Ages s.table s.fresh t) (hlisted : ∀ c, Listed s.table c → Listed t c) :
    Coherent { s with table := t, fresh := fresh, lock := lock } ∧
      (Good s → Good { s with table := t, fresh := fresh, lock := lock }) := by
  refine ⟨⟨ht, fun i => (h.sups i).mono hfresh fun c _ hl => hlisted c hl, h.births⟩, fun hG i => ?_⟩
  exact (hG i).ages hages (h.sups i).young

theorem alter_step {f : Process → Process} (h : Coherent s) (hf : Mild f) (id : ℕ) :
    Coherent { s with table := alter s.table id f } ∧ (Good s → Good { s with table := alter s.table id f }) :=
  world_step h (h.table.map (hf.guard id)) le_rfl (Ages.map _ _ (hf.guard id)) fun _ hl => hl.map (hf.guard id)

/-- **A step keeps what the supervisors count on, and is sound exactly if it signals the wallet's
own only and every promise is kept.** -/
theorem step_accounted (h : Coherent s) (e : NodeEvent) :
    Coherent (s.next e) ∧ (Good s → (sound s e = true ↔ OwnSignals s e ∧ Good (s.next e))) := by
  have hput : ∀ {v : Supervisor} {i : ℕ}, SupOk s.table s.fresh v → v.child = (s.sup i).child →
      (Fair s.table (s.sup i) → Fair s.table v) → Coherent (s.put i v) ∧ (Good s → Good (s.put i v)) := by
    intro v i hv hchild hfair
    have hm := moves_put h hv hchild
    exact ⟨hm.coherent h, fun hG => (hm.good_iff h hG).mpr (hfair (hG i))⟩
  have hquiet : ∀ {s' : NodeSystem}, sound s e = true → signals s e = [] → Coherent s' ∧ (Good s → Good s') →
      Coherent s' ∧ (Good s → (sound s e = true ↔ OwnSignals s e ∧ Good s')) := by
    intro s' hsound hsig hs'
    exact ⟨hs'.1, fun hG => ⟨fun _ => ⟨ownSignals_nil hsig, hs'.2 hG⟩, fun _ => hsound⟩⟩
  cases e with
  | start i =>
    refine hquiet rfl rfl ?_
    simp only [NodeSystem.next]
    split
    · rename_i hx
      have hok := h.sups i
      have hv : SupOk s.table s.fresh { s.sup i with phase := .reading } := by
        refine hok.goto ?_ ?_ ?_ ?_ ?_ <;> rw [hx] <;> decide
      exact hput hv rfl fun _ => fair_of_lasting (hv.lasting nofun) nofun nofun
    · exact ⟨h, id⟩
  | startFailed i error =>
    refine hquiet rfl rfl ?_
    simp only [NodeSystem.next]
    split
    · rename_i hx
      exact hput ((h.sups i).quit _) rfl fun _ => fair_of_childless ((h.sups i).childless (by rw [hx]; rfl))
    · exact ⟨h, id⟩
  | send i =>
    have hok := h.sups i
    exact hquiet rfl rfl (hput ⟨hok.young, hok.minded, hok.childless, hok.orphan, hok.unread, hok.lasting⟩ rfl
      fun hf => ⟨hf.gone, hf.reclaimed⟩)
  | hangup i =>
    have hok := h.sups i
    exact hquiet rfl rfl (hput ⟨hok.young, hok.minded, hok.childless, hok.orphan, hok.unread, hok.lasting⟩ rfl
      fun hf => ⟨hf.gone, hf.reclaimed⟩)
  | call i a =>
    obtain ⟨v, hm, hiff⟩ := accounted_call h i a
    refine ⟨hm.coherent h, fun hG => ?_⟩
    have hgood : Good (s.next (.call i a)) ↔ Fair (s.call i a).table v := hm.good_iff h hG
    rw [hiff (hG i), hgood]
  | fork id group permitted =>
    refine hquiet rfl rfl ?_
    simp only [NodeSystem.next]
    split
    · rename_i hfree
      exact world_step h (h.table.cons hfree rfl) (Nat.le_succ _) (Ages.cons _ rfl) fun _ hl => hl.cons _
    · exact ⟨h, fun hG => hG⟩
  | finish id code => exact hquiet rfl rfl (alter_step h (mild_exit code) id)
  | bury id =>
    refine hquiet rfl rfl (world_step h (h.table.filter _) le_rfl (Ages.filter _ _ _) fun c hl => ?_)
    exact hl.filter fun q _ _ _ hours => by rw [hours, Bool.not_true, Bool.and_false, Bool.not_false]
  | regroup id group => exact hquiet rfl rfl (alter_step h (mild_group group) id)
  | chown id permitted => exact hquiet rfl rfl (alter_step h (mild_permitted permitted) id)
  | edit lock =>
    exact hquiet rfl rfl (world_step h h.table le_rfl (Ages.refl _ _) fun _ hl => hl)

end Calls

/-- Before any supervisor has been started, with any processes and any lock. -/
structure Initial (s : NodeSystem) : Prop where
  table : TableOk s.table s.fresh
  sup : ∀ i, s.sup i = ⟨.idle, .starting, none, 0, true, none, []⟩

theorem Initial.coherent {s : NodeSystem} (h : Initial s) : Coherent s where
  table := h.table
  sups i := by
    rw [h.sup i]
    exact ⟨nofun, nofun, fun _ => rfl, nofun, fun _ => rfl, fun _ => rfl⟩
  births i j c d hc := by
    rw [h.sup i] at hc
    cases hc

theorem Initial.good {s : NodeSystem} (h : Initial s) : Good s := by
  intro i
  rw [h.sup i]
  exact fair_of_lasting rfl nofun nofun

/-- **The wallet stops only its own node, exactly where it is sound.** A run signals nobody but the
process whose id the lock text denotes and the wallet's own child, reclaims a lock only when its
process is gone, and is over only when its child is, exactly if every step is sound. -/
theorem stops_only_its_own_node (s t : NodeSystem) (tr : List (NodeSystem × NodeEvent)) (h₀ : Initial s)
    (hrun : Trace.Run (fun s e t => s.next e = t) s tr t) :
    (∀ u ∈ tr, sound u.1 u.2 = true) ↔ (∀ u ∈ tr, OwnSignals u.1 u.2 ∧ Good u.1) ∧ Good t := by
  refine hrun.forall_iff (I := Coherent) (C := fun s e => sound s e = true) (P := OwnSignals) ?_ ?_ h₀.coherent h₀.good
  · rintro s e t hc rfl
    exact (step_accounted hc e).1
  · rintro s e t hc hG rfl
    exact (step_accounted hc e).2 hG

/-- One process besides the wallet, and a lock. -/
def wallet (q : Process) (lock : Text) : NodeSystem where
  table := [q]
  group := 1
  lock := some lock
  lockPath := ".alphanumeric.instance.lock".toList
  sup _ := ⟨.idle, .starting, none, 0, true, none, []⟩
  fresh := q.birth + 1

theorem wallet_initial (q : Process) (lock : Text) (hpos : 0 < q.id) (hlt : q.id < 2 ^ 31) :
    Initial (wallet q lock) where
  table := by
    unfold wallet
    refine ⟨?_, ?_, ?_, ?_⟩ <;> simp only [List.forall_mem_singleton]
    · exact ⟨hpos, hlt⟩
    · exact fun _ => trivial
    · exact fun _ => trivial
    · exact Nat.lt_succ_self _
  sup _ := rfl

/-- An orphan is asked to stop and does, a node is started, and the wallet stops it. -/
def orphanThenNode : List NodeEvent :=
  [.start 0, .call 0 .ok, .call 0 .ok, .call 0 .ok, .finish 42 (some 0), .bury 42, .call 0 .ok, .call 0 .ok,
    .call 0 (.spawned 43), .send 0, .call 0 .ok, .call 0 .ok, .call 0 .ok, .finish 43 (some 0), .call 0 .ok]

def orphan : Process := ⟨42, 7, true, none, false, 0⟩

theorem stops_only_its_own_node_orphan :
    ((∀ u ∈ Trace.visited NodeSystem.next (wallet orphan "42\n".toList) orphanThenNode, OwnSignals u.1 u.2 ∧ Good u.1) ∧
      Good (orphanThenNode.foldl NodeSystem.next (wallet orphan "42\n".toList))) ∧
      ((orphanThenNode.foldl NodeSystem.next (wallet orphan "42\n".toList)).sup 0).state = .stopped := by
  have hsound : (Trace.visited NodeSystem.next (wallet orphan "42\n".toList) orphanThenNode).all
      (fun u => sound u.1 u.2) = true := by decide +kernel
  refine ⟨?_, by decide +kernel⟩
  exact (stops_only_its_own_node _ _ _ (wallet_initial _ _ (by decide) (by decide)) (Trace.run_visited _ _ _)).mp
    (List.all_eq_true.mp hsound)

/-- A process of the wallet's group, and one of another user. -/
def bystander : Process := ⟨500, 1, true, none, false, 0⟩

def stranger : Process := ⟨500, 500, false, none, false, 0⟩

/-- A lock that says 0, or 4294967295, gets the wallet's group, or everybody, a `SIGTERM`; the lock
of a process of another user is removed; and a failed check leaves the node running. -/
theorem stops_another_node :
    ¬ OwnSignals ([.start 0, .call 0 .ok, .call 0 .ok].foldl NodeSystem.next (wallet bystander "0".toList))
        (.call 0 .ok) ∧
      ¬ OwnSignals ([.start 0, .call 0 .ok, .call 0 .ok].foldl NodeSystem.next (wallet bystander "4294967295".toList))
        (.call 0 .ok) ∧
      ¬ Good ([.start 0, .call 0 .ok, .call 0 .ok].foldl NodeSystem.next (wallet stranger "500".toList)) ∧
      ¬ Good ([.start 0, .call 0 .ok, .call 0 .ok, .call 0 (.spawned 43), .call 0 .ok, .call 0 (.error [])].foldl
        NodeSystem.next (wallet bystander "no pid".toList)) := by
  refine ⟨fun h => ?_, fun h => ?_, fun h => ?_, fun h => ?_⟩
  · rcases h 0 .ok rfl bystander (by decide +kernel) with ⟨raw, hraw, hid⟩ | ⟨c, hc, -⟩
    · cases hraw
      revert hid
      decide +kernel
    · cases hc
  · rcases h 0 .ok rfl bystander (by decide +kernel) with ⟨raw, hraw, hid⟩ | ⟨c, hc, -⟩
    · cases hraw
      revert hid
      decide +kernel
    · cases hc
  · have hrunning := (h 0).reclaimed (.inl (by decide +kernel)) "500".toList (by decide +kernel) stranger
      (by decide +kernel) (by decide +kernel)
    cases hrunning
  · have hrunning := (h 0).gone (by decide +kernel) ⟨43, 1⟩ (by decide +kernel) ⟨43, 1, true, none, true, 1⟩
      (by decide +kernel) rfl
    cases hrunning

end Alphanumeric.Gui.Supervise
