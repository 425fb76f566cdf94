/-
# Runs of a labelled transition system, with their trace

A run is a list of steps; its trace records the state before each step and the
step's label, so that a property of a run may put a condition on every step it
takes. `Run.invariant` is the rule that the steps which meet the condition keep an
invariant, and `Run.forall_iff` that a run meets a condition exactly if it has what the
condition is for; `Run.relates` is the same as `Run.invariant` for a reflexive and transitive relation
between the first and the last state. Where the step is a function, `visited` lists the
steps that a list of labels takes, and where it is a partial one, `follow` does.

Key definitions: `Trace.Run`, `Trace.visited`, `Trace.follow`.
Key theorems: `Trace.Run.trans`, `Trace.Run.invariant`, `Trace.Run.forall_iff`, `Trace.Run.relates`,
`Trace.run_visited`, `Trace.run_follow`.
-/
import Mathlib.Data.List.Basic

namespace Trace

variable {σ ε : Type} {Step : σ → ε → σ → Prop}

/-- `Run Step s tr t`: the steps recorded in `tr` lead from `s` to `t`. -/
inductive Run (Step : σ → ε → σ → Prop) : σ → List (σ × ε) → σ → Prop
  | nil (s : σ) : Run Step s [] s
  | cons {s t u : σ} {e : ε} {tr : List (σ × ε)} :
    Step s e t → Run Step t tr u → Run Step s ((s, e) :: tr) u

namespace Run

theorem single {s t : σ} {e : ε} (h : Step s e t) : Run Step s [(s, e)] t := .cons h (.nil t)

theorem trans {s t u : σ} {tr tr' : List (σ × ε)} (h : Run Step s tr t) (h' : Run Step t tr' u) :
    Run Step s (tr ++ tr') u := by
  induction h with
  | nil => exact h'
  | cons hs _ ih => exact .cons hs (ih h')

/-- An invariant that every step meeting `C` keeps holds after every run whose steps meet `C`. -/
theorem invariant {I : σ → Prop} {C : σ → ε → Prop}
    (hstep : ∀ s e t, I s → C s e → Step s e t → I t) {s t : σ} {tr : List (σ × ε)}
    (h : Run Step s tr t) (h₀ : I s) (hC : ∀ p ∈ tr, C p.1 p.2) : I t := by
  induction h with
  | nil => exact h₀
  | cons hs _ ih =>
    simp only [List.forall_mem_cons] at hC
    exact ih (hstep _ _ _ h₀ hC.1 hs) hC.2

/-- Where a step from an invariant state meets `C` exactly if it has `P` and leads to `G` again, the
steps of a run meet `C` exactly if all of them have `P` and the run stays in `G`. -/
theorem forall_iff {I G : σ → Prop} {C P : σ → ε → Prop} (hinv : ∀ s e t, I s → Step s e t → I t)
    (hstep : ∀ s e t, I s → G s → Step s e t → (C s e ↔ P s e ∧ G t)) {s t : σ} {tr : List (σ × ε)}
    (h : Run Step s tr t) (hI : I s) (hG : G s) :
    (∀ p ∈ tr, C p.1 p.2) ↔ (∀ p ∈ tr, P p.1 p.2 ∧ G p.1) ∧ G t := by
  induction h with
  | nil => exact ⟨fun _ => ⟨fun _ hp => absurd hp List.not_mem_nil, hG⟩, fun _ _ hp => absurd hp List.not_mem_nil⟩
  | @cons s t u e tr hs hrun ih =>
    have hI' := hinv _ _ _ hI hs
    simp only [List.forall_mem_cons]
    constructor
    · rintro ⟨hC, hCs⟩
      obtain ⟨hP, hG'⟩ := (hstep _ _ _ hI hG hs).mp hC
      exact ⟨⟨⟨hP, hG⟩, ((ih hI' hG').mp hCs).1⟩, ((ih hI' hG').mp hCs).2⟩
    · rintro ⟨⟨⟨hP, -⟩, hPs⟩, hGu⟩
      have hG' : G t := by
        cases hrun with
        | nil => exact hGu
        | cons _ _ => exact (hPs _ (List.mem_cons_self ..)).2
      exact ⟨(hstep _ _ _ hI hG hs).mpr ⟨hP, hG'⟩, (ih hI' hG').mpr ⟨hPs, hGu⟩⟩

/-- A relation that every step from an invariant state satisfies, closed under composition,
holds from the first state of a run to its last. -/
theorem relates {I : σ → Prop} {R : σ → σ → Prop} (hrefl : ∀ s, R s s)
    (htrans : ∀ s t u, R s t → R t u → R s u) (hinv : ∀ s e t, I s → Step s e t → I t)
    (hstep : ∀ s e t, I s → Step s e t → R s t) {s t : σ} {tr : List (σ × ε)}
    (h : Run Step s tr t) (h₀ : I s) : R s t := by
  induction h with
  | nil => exact hrefl _
  | cons hs _ ih => exact htrans _ _ _ (hstep _ _ _ h₀ hs) (ih (hinv _ _ _ h₀ hs))

end Run

/-- The steps that the labels take, one after the other. -/
def visited (f : σ → ε → σ) : σ → List ε → List (σ × ε)
  | _, [] => []
  | s, e :: es => (s, e) :: visited f (f s e) es

theorem run_visited (f : σ → ε → σ) :
    ∀ (es : List ε) (s : σ), Run (fun s e t => f s e = t) s (visited f s es) (es.foldl f s)
  | [], s => .nil s
  | _ :: es, _ => .cons rfl (run_visited f es _)

theorem map_snd_visited (f : σ → ε → σ) : ∀ (es : List ε) (s : σ), (visited f s es).map Prod.snd = es
  | [], _ => rfl
  | e :: es, s => congrArg (e :: ·) (map_snd_visited f es (f s e))

/-- The steps that the labels take where every one of them can, and the state they end in. -/
def follow (f : σ → ε → Option σ) : σ → List ε → Option (List (σ × ε) × σ)
  | s, [] => some ([], s)
  | s, e :: es => (f s e).bind fun t => (follow f t es).map fun r => ((s, e) :: r.1, r.2)

theorem run_follow {f : σ → ε → Option σ} : ∀ {es : List ε} {s : σ} {r : List (σ × ε) × σ},
    follow f s es = some r → Run (fun s e t => f s e = some t) s r.1 r.2
  | [], s, r, h => by
    obtain rfl : ([], s) = r := by simpa [follow] using h
    exact .nil s
  | e :: es, s, r, h => by
    simp only [follow, Option.bind_eq_some_iff, Option.map_eq_some_iff] at h
    obtain ⟨t, ht, r', hr', rfl⟩ := h
    exact .cons ht (run_follow hr')

end Trace
