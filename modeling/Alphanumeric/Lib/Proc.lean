/-
# Tasks that share a state

A task takes atomic steps on a shared state and asks questions of an environment that
answers as it likes. `Exec` runs one task alone, `Interleave` any number of them in any
order, with tasks started and dropped at any time. `Holds` is a task's contract: under
the interference `R` of the others and an invariant `I`, each of its own steps is one of
`G`, and it ends in the postcondition. With no interference this is a weakest
precondition for `Exec` (`exec_post`); with `G` inside `R` it is rely-guarantee reasoning
for `Interleave` (`interleave_relates`). A task `Obeys` a relation if none of its steps leaves
it, from whatever state: the contract that needs nothing of the others.

Key definitions: `Proc`, `Proc.run`, `Proc.Exec`, `Proc.Stopped`, `Proc.Holds`, `Proc.Obeys`, `Proc.Interleave`,
`Proc.turn`.
Key theorems: `Proc.holds_bind`, `Proc.exec_post`, `Proc.Stopped.keeps`, `Proc.Obeys.bind`, `Proc.interleave_relates`,
`Proc.interleave_keeps`.
-/
import Alphanumeric.Lib.Trace
import Mathlib.Tactic

/-- `step f k` replaces the state `s` by `f s` and goes on as `k s`. -/
inductive Proc (σ Q : Type) (A : Q → Type) (α : Type) : Type
  | done (a : α)
  | step (f : σ → σ) (k : σ → Proc σ Q A α)
  | ask (q : Q) (k : A q → Proc σ Q A α)

namespace Proc

variable {σ Q : Type} {A : Q → Type} {α β : Type}

def bind : Proc σ Q A α → (α → Proc σ Q A β) → Proc σ Q A β
  | .done a, g => g a
  | .step f k, g => .step f fun s => (k s).bind g
  | .ask q k, g => .ask q fun a => (k a).bind g

instance : Monad (Proc σ Q A) where
  pure := .done
  bind := .bind

/-- One atomic operation with a result. -/
def act (g : σ → α × σ) : Proc σ Q A α := .step (fun s => (g s).2) fun s => .done (g s).1

def read (g : σ → α) : Proc σ Q A α := .step id fun s => .done (g s)

def query (q : Q) : Proc σ Q A (A q) := .ask q .done

/-- Run alone, every question answered by `answer`. -/
def run (answer : ∀ q, A q) : Proc σ Q A α → σ → α × σ
  | .done a, s => (a, s)
  | .step f k, s => (k s).run answer (f s)
  | .ask q k, s => (k (answer q)).run answer s

/-! ### One task alone -/

/-- The task ends in `s'` with result `a`, for some answers within `ans`. -/
inductive Exec (ans : ∀ q, A q → Prop) : Proc σ Q A α → σ → α → σ → Prop
  | done {a : α} {s : σ} : Exec ans (.done a) s a s
  | step {f : σ → σ} {k : σ → Proc σ Q A α} {s s' : σ} {a : α} :
    Exec ans (k s) (f s) a s' → Exec ans (.step f k) s a s'
  | ask {q : Q} {k : A q → Proc σ Q A α} {r : A q} {s s' : σ} {a : α} :
    ans q r → Exec ans (k r) s a s' → Exec ans (.ask q k) s a s'

theorem exec_run {ans : ∀ q, A q → Prop} {answer : ∀ q, A q} (h : ∀ q, ans q (answer q)) :
    ∀ (p : Proc σ Q A α) (s : σ), Exec ans p s (p.run answer s).1 (p.run answer s).2
  | .done _, _ => .done
  | .step _ k, s => .step (exec_run h (k s) _)
  | .ask q k, s => .ask (h q) (exec_run h (k (answer q)) s)

/-- The task may be stopped, or have ended, in the state `t`. -/
inductive Stopped (ans : ∀ q, A q → Prop) : Proc σ Q A α → σ → σ → Prop
  | here {p : Proc σ Q A α} {s : σ} : Stopped ans p s s
  | step {f : σ → σ} {k : σ → Proc σ Q A α} {s t : σ} :
    Stopped ans (k s) (f s) t → Stopped ans (.step f k) s t
  | ask {q : Q} {k : A q → Proc σ Q A α} {r : A q} {s t : σ} :
    ans q r → Stopped ans (k r) s t → Stopped ans (.ask q k) s t

/-! ### Contracts -/

section Contracts

variable (R : σ → σ → Prop) (I : σ → Prop) (G : σ → σ → Prop) (ans : ∀ q, A q → Prop)

/-- The contract of a task that last saw the state `s`. -/
def Holds : Proc σ Q A α → (α → σ → Prop) → σ → Prop
  | .done a, post, s => post a s
  | .step f k, post, s => ∀ t, R s t → I t → G t (f t) ∧ Holds (k t) post (f t)
  | .ask q k, post, s => ∀ a, ans q a → Holds (k a) post s

variable {R I G ans}

@[simp] theorem holds_pure {a : α} {post : α → σ → Prop} {s : σ} :
    Holds R I G ans (pure a) post s ↔ post a s := Iff.rfl

@[simp] theorem holds_bind {g : α → Proc σ Q A β} {post : β → σ → Prop} :
    ∀ {p : Proc σ Q A α} {s : σ}, Holds R I G ans (p >>= g) post s ↔
      Holds R I G ans p (fun a t => Holds R I G ans (g a) post t) s := by
  intro p
  change ∀ {s : σ}, Holds R I G ans (p.bind g) post s ↔ _
  induction p with
  | done a => exact Iff.rfl
  | step f k ih =>
    intro s
    exact forall₃_congr fun t _ _ => and_congr_right fun _ => ih t
  | ask q k ih =>
    intro s
    exact forall₂_congr fun a _ => ih a

@[simp] theorem holds_act {g : σ → α × σ} {post : α → σ → Prop} {s : σ} :
    Holds R I G ans (act g) post s ↔
      ∀ t, R s t → I t → G t (g t).2 ∧ post (g t).1 (g t).2 := Iff.rfl

@[simp] theorem holds_read {g : σ → α} {post : α → σ → Prop} {s : σ} :
    Holds R I G ans (read g) post s ↔ ∀ t, R s t → I t → G t t ∧ post (g t) t := Iff.rfl

@[simp] theorem holds_query {q : Q} {post : A q → σ → Prop} {s : σ} :
    Holds R I G ans (query q) post s ↔ ∀ a, ans q a → post a s := Iff.rfl

theorem Holds.mono {post post' : α → σ → Prop} (h : ∀ a s, post a s → post' a s) :
    ∀ {p : Proc σ Q A α} {s : σ}, Holds R I G ans p post s → Holds R I G ans p post' s := by
  intro p
  induction p with
  | done a => exact h a _
  | step f k ih => exact fun hp t hR hI => ⟨(hp t hR hI).1, ih t (hp t hR hI).2⟩
  | ask q k ih => exact fun hp a ha => ih a (hp a ha)

/-- A contract survives interference before the first step. -/
theorem Holds.weaken (htrans : ∀ s t u, R s t → R t u → R s u) {s t : σ} (hst : R s t) :
    ∀ {p : Proc σ Q A α}, Holds R I G ans p (fun _ _ => True) s →
      Holds R I G ans p (fun _ _ => True) t := by
  intro p
  induction p with
  | done a => exact id
  | step f k ih => exact fun h u htu hI => h u (htrans s t u hst htu) hI
  | ask q k ih => exact fun h a ha => ih a (h a ha)

end Contracts

/-- The contract of a task that runs alone. -/
abbrev Alone (ans : ∀ q, A q → Prop) : Proc σ Q A α → (α → σ → Prop) → σ → Prop :=
  Holds (· = ·) (fun _ => True) (fun _ _ => True) ans

/-- What holds after anything holds after any first part. -/
theorem alone_bind {ans : ∀ q, A q → Prop} {g : α → Proc σ Q A β} {post : β → σ → Prop}
    (h : ∀ a t, Alone ans (g a) post t) : ∀ {p : Proc σ Q A α} {s : σ}, Alone ans (p >>= g) post s := by
  intro p
  change ∀ {s : σ}, Alone ans (p.bind g) post s
  induction p with
  | done a => exact h a _
  | step f k ih => exact fun t _ _ => ⟨trivial, ih t⟩
  | ask q k ih => exact fun a _ => ih a

/-- **Running alone, a task ends in its postcondition.** -/
theorem exec_post {ans : ∀ q, A q → Prop} {p : Proc σ Q A α} {post : α → σ → Prop} {s s' : σ} {a : α}
    (he : Exec ans p s a s') (h : Alone ans p post s) : post a s' := by
  induction he with
  | done => exact h
  | step _ ih => exact ih (h _ rfl trivial).2
  | ask hr _ ih => exact ih (h _ hr)

/-- A contract with an invariant, for a task that runs alone from a state with it. -/
theorem Holds.alone {R : σ → σ → Prop} {I : σ → Prop} {G : σ → σ → Prop} {ans : ∀ q, A q → Prop}
    (hrefl : ∀ s, R s s) (hinv : ∀ s t, I s → G s t → I t) {post : α → σ → Prop} :
    ∀ {p : Proc σ Q A α} {s : σ}, I s → Holds R I G ans p post s →
      Alone ans p (fun a t => post a t ∧ I t) s := by
  intro p
  induction p with
  | done a => exact fun hI h => ⟨h, hI⟩
  | step f k ih =>
    rintro s hI h t rfl -
    obtain ⟨hG, hk⟩ := h s (hrefl s) hI
    exact ⟨trivial, ih s (hinv _ _ hI hG) hk⟩
  | ask q k ih => exact fun hI h a ha => ih a hI (h a ha)

/-- The contract of a task that runs alone and keeps `I` at every step. -/
abbrev Keeps (ans : ∀ q, A q → Prop) (I : σ → Prop) : Proc σ Q A α → (α → σ → Prop) → σ → Prop :=
  Holds (· = ·) I (fun _ t => I t) ans

/-- **Wherever a task is stopped, what it keeps holds.** -/
theorem Stopped.keeps {ans : ∀ q, A q → Prop} {I : σ → Prop} {p : Proc σ Q A α}
    {post : α → σ → Prop} {s t : σ} (ht : Stopped ans p s t) (hs : I s) (h : Keeps ans I p post s) :
    I t := by
  induction ht with
  | here => exact hs
  | step _ ih =>
    obtain ⟨hI, hk⟩ := h _ rfl hs
    exact ih hI hk
  | ask hr _ ih => exact ih hs (h _ hr)

theorem exec_keeps {ans : ∀ q, A q → Prop} {I : σ → Prop} {p : Proc σ Q A α} {post : α → σ → Prop}
    {s t : σ} {a : α} (he : Exec ans p s a t) (hs : I s) (h : Keeps ans I p post s) :
    post a t ∧ I t := by
  have halone : Alone ans p (fun a t => post a t ∧ I t) s :=
    Holds.alone (I := I) (fun _ => rfl) (fun _ _ _ hI => hI) hs h
  have hend := exec_post he halone
  exact hend

/-! ### Tasks that keep within a relation -/

/-- Every step the task may take, from any state and after any answers, is within `G`. -/
def Obeys (G : σ → σ → Prop) : Proc σ Q A α → Prop
  | .done _ => True
  | .step f k => ∀ s, G s (f s) ∧ Obeys G (k s)
  | .ask _ k => ∀ a, Obeys G (k a)

namespace Obeys

variable {G : σ → σ → Prop}

theorem pure {a : α} : Obeys G (Pure.pure a : Proc σ Q A α) := trivial

theorem query {q : Q} : Obeys G (Proc.query q : Proc σ Q A (A q)) := fun _ => trivial

theorem act {g : σ → α × σ} (h : ∀ s, G s (g s).2) : Obeys G (Proc.act g : Proc σ Q A α) := fun s => ⟨h s, trivial⟩

theorem read (hrefl : ∀ s, G s s) {g : σ → α} : Obeys G (Proc.read g : Proc σ Q A α) := fun s => ⟨hrefl s, trivial⟩

theorem bind {p : Proc σ Q A α} {g : α → Proc σ Q A β} (hp : Obeys G p) (hg : ∀ a, Obeys G (g a)) :
    Obeys G (p >>= g) := by
  change Obeys G (p.bind g)
  induction p with
  | done a => exact hg a
  | step f k ih => exact fun s => ⟨(hp s).1, ih s (hp s).2⟩
  | ask q k ih => exact fun a => ih a (hp a)

theorem mono {G' : σ → σ → Prop} (h : ∀ s t, G s t → G' s t) {p : Proc σ Q A α} (hp : Obeys G p) : Obeys G' p := by
  induction p with
  | done a => exact trivial
  | step f k ih => exact fun s => ⟨h _ _ (hp s).1, ih s (hp s).2⟩
  | ask q k ih => exact fun a => ih a (hp a)

theorem holds {R : σ → σ → Prop} {I : σ → Prop} {ans : ∀ q, A q → Prop} {p : Proc σ Q A α} (hp : Obeys G p) (s : σ) :
    Holds R I G ans p (fun _ _ => True) s := by
  induction p generalizing s with
  | done a => exact trivial
  | step f k ih => exact fun t _ _ => ⟨(hp t).1, ih t (hp t).2 (f t)⟩
  | ask q k ih => exact fun a _ => ih a (hp a) s

end Obeys

/-! ### Tasks in any order -/

section Interleaving

/-- One move of a pool of tasks: a step, an answer, a new task, or the end of one (a task
that is finished or cancelled). -/
inductive Interleave (ans : ∀ q, A q → Prop) (start : Proc σ Q A Unit → Prop) :
    σ × List (Proc σ Q A Unit) → Unit → σ × List (Proc σ Q A Unit) → Prop
  | act {s : σ} {f : σ → σ} {k : σ → Proc σ Q A Unit} (pre post : List (Proc σ Q A Unit)) :
    Interleave ans start (s, pre ++ .step f k :: post) () (f s, pre ++ k s :: post)
  | answer {s : σ} {q : Q} {r : A q} {k : A q → Proc σ Q A Unit} (pre post : List (Proc σ Q A Unit)) :
    ans q r → Interleave ans start (s, pre ++ .ask q k :: post) () (s, pre ++ k r :: post)
  | start {s : σ} {tasks : List (Proc σ Q A Unit)} (p : Proc σ Q A Unit) :
    start p → Interleave ans start (s, tasks) () (s, p :: tasks)
  | stop {s : σ} (pre post : List (Proc σ Q A Unit)) (p : Proc σ Q A Unit) :
    Interleave ans start (s, pre ++ p :: post) () (s, pre ++ post)

variable {R : σ → σ → Prop} {I : σ → Prop} {G : σ → σ → Prop} {ans : ∀ q, A q → Prop}
  {start : Proc σ Q A Unit → Prop}

/-- Every task of the pool keeps its contract from the state the pool is in. -/
structure Pool (R : σ → σ → Prop) (I : σ → Prop) (G : σ → σ → Prop) (ans : ∀ q, A q → Prop)
    (c : σ × List (Proc σ Q A Unit)) : Prop where
  inv : I c.1
  tasks : ∀ p ∈ c.2, Holds R I G ans p (fun _ _ => True) c.1

/-- One move keeps the contracts, and changes the state within `G` only. -/
theorem Interleave.pool (hrefl : ∀ s, R s s) (htrans : ∀ s t u, R s t → R t u → R s u)
    (hGR : ∀ s t, I s → G s t → R s t) (hGI : ∀ s t, I s → G s t → I t)
    (hstart : ∀ p, start p → ∀ s, I s → Holds R I G ans p (fun _ _ => True) s)
    {c c' : σ × List (Proc σ Q A Unit)} {u : Unit} (h : Interleave ans start c u c')
    (hc : Pool R I G ans c) : Pool R I G ans c' ∧ (c'.1 = c.1 ∨ G c.1 c'.1) := by
  have hmem : ∀ {pre post : List (Proc σ Q A Unit)} {p p' : Proc σ Q A Unit} {P : Proc σ Q A Unit → Prop},
      (∀ x ∈ pre ++ p :: post, P x) → P p' → ∀ x ∈ pre ++ p' :: post, P x := by
    intro pre post p p' P hall hp' x hx
    rcases List.mem_append.mp hx with hx | hx
    · exact hall x (by simp [hx])
    · rcases List.mem_cons.mp hx with rfl | hx
      · exact hp'
      · exact hall x (by simp [hx])
  cases h with
  | @act s f k pre post =>
    obtain ⟨hG, hk⟩ := hc.tasks (.step f k) (by simp) s (hrefl s) hc.inv
    have hR : R s (f s) := hGR _ _ hc.inv hG
    have hall : ∀ x ∈ pre ++ .step f k :: post, Holds R I G ans x (fun _ _ => True) (f s) :=
      fun x hx => (hc.tasks x hx).weaken htrans hR
    exact ⟨⟨hGI _ _ hc.inv hG, hmem hall hk⟩, .inr hG⟩
  | @answer s q r k pre post hr =>
    refine ⟨⟨hc.inv, ?_⟩, .inl rfl⟩
    exact hmem hc.tasks (hc.tasks (.ask q k) (by simp) r hr)
  | @start s tasks p hp =>
    refine ⟨⟨hc.inv, fun x hx => ?_⟩, .inl rfl⟩
    rcases List.mem_cons.mp hx with rfl | hx
    · exact hstart x hp s hc.inv
    · exact hc.tasks x hx
  | @stop s pre post p =>
    refine ⟨⟨hc.inv, fun x hx => hc.tasks x ?_⟩, .inl rfl⟩
    rcases List.mem_append.mp hx with hx | hx
    · exact List.mem_append_left _ hx
    · exact List.mem_append_right _ (List.mem_cons_of_mem _ hx)

/-- **Whatever the order, between two moments the state changes within `R`.** -/
theorem interleave_relates (hrefl : ∀ s, R s s) (htrans : ∀ s t u, R s t → R t u → R s u)
    (hGR : ∀ s t, I s → G s t → R s t) (hGI : ∀ s t, I s → G s t → I t)
    (hstart : ∀ p, start p → ∀ s, I s → Holds R I G ans p (fun _ _ => True) s)
    {c c' : σ × List (Proc σ Q A Unit)} {tr : List ((σ × List (Proc σ Q A Unit)) × Unit)}
    (hc : Pool R I G ans c) (h : Trace.Run (Interleave ans start) c tr c') : Pool R I G ans c' ∧ R c.1 c'.1 := by
  have hpool : ∀ c u c', Pool R I G ans c → Interleave ans start c u c' → Pool R I G ans c' :=
    fun c u c' hc hstep => (hstep.pool hrefl htrans hGR hGI hstart hc).1
  refine ⟨h.invariant (C := fun _ _ => True) (fun c u c' hc _ => hpool c u c' hc) hc (by simp), ?_⟩
  refine h.relates (R := fun c c' => R c.1 c'.1) (fun c => hrefl c.1) (fun _ _ _ => htrans _ _ _) hpool ?_ hc
  intro c u c' hc hstep
  rcases (hstep.pool hrefl htrans hGR hGI hstart hc).2 with heq | hG
  · rw [heq]
    exact hrefl c.1
  · exact hGR _ _ hc.inv hG

/-- The pool once its task `i` has made its next move, questions answered by `answer`. -/
def turn (answer : ∀ q, A q) (c : σ × List (Proc σ Q A Unit)) (i : ℕ) : σ × List (Proc σ Q A Unit) :=
  match c.2[i]? with
  | some (.step f k) => (f c.1, c.2.set i (k c.1))
  | some (.ask q k) => (c.1, c.2.set i (k (answer q)))
  | _ => c

/-- Turns in any order are a run. -/
theorem run_turns {answer : ∀ q, A q} (h : ∀ q, ans q (answer q)) :
    ∀ (order : List ℕ) (c : σ × List (Proc σ Q A Unit)),
      ∃ tr, Trace.Run (Interleave ans start) c tr (order.foldl (turn answer) c)
  | [], c => ⟨[], .nil c⟩
  | i :: order, c => by
    have hturn : ∃ tr, Trace.Run (Interleave ans start) c tr (turn answer c i) := by
      obtain ⟨s, tasks⟩ := c
      unfold turn
      cases hi : tasks[i]? with
      | none => exact ⟨[], .nil _⟩
      | some p =>
        obtain ⟨hlt, hget⟩ := List.getElem?_eq_some_iff.mp hi
        have hsplit : tasks = tasks.take i ++ p :: tasks.drop (i + 1) := by
          rw [← hget, List.cons_getElem_drop_succ, List.take_append_drop]
        have hset : ∀ p', tasks.set i p' = tasks.take i ++ p' :: tasks.drop (i + 1) := fun p' =>
          List.set_eq_take_append_cons_drop.trans (if_pos hlt)
        cases p with
        | done a => exact ⟨[], .nil _⟩
        | step f k =>
          have hact := @Interleave.act σ Q A ans start s f k (tasks.take i) (tasks.drop (i + 1))
          rw [← hsplit, ← hset] at hact
          exact ⟨_, .single hact⟩
        | ask q k =>
          have hanswer := @Interleave.answer σ Q A ans start s q _ k (tasks.take i) (tasks.drop (i + 1)) (h q)
          rw [← hsplit, ← hset] at hanswer
          exact ⟨_, .single hanswer⟩
    obtain ⟨tr, hrun⟩ := hturn
    obtain ⟨tr', hrest⟩ := run_turns h order (turn answer c i)
    exact ⟨tr ++ tr', hrun.trans hrest⟩

end Interleaving

end Proc
