/-
# A folder that survives crashes

A folder maps names to files. Renaming is atomic; the bytes of a file are safe from a
crash once the file is synced, and before that a crash may leave any part of them. The
file calls are tasks (`Proc`) that ask the environment whether they fail, so that a
program over them is stopped at any point by `Proc.Stopped`. `contents P` is the multiset
of what lies under the names in `P`: a program that must not lose a file keeps it.

Key definitions: `Folder`, `Folder.put`, `Folder.rename`, `Folder.crash`, `Folder.contents`,
`Folder.Aside`, `Io`, `Io.writeSynced`.
Key theorems: `Folder.contents_put_fresh`, `Folder.contents_put_over`,
`Folder.contents_rename`, `Folder.contents_crash`, `Io.writeSynced_keeps`.
-/
import Alphanumeric.Lib.Proc
import Mathlib.Data.Multiset.MapFold
import Mathlib.Tactic

structure File where
  bytes : List UInt8
  synced : Bool
deriving DecidableEq

/-- Names and their files, no name twice. -/
abbrev Folder (ν : Type) : Type := List (ν × File)

namespace Folder

variable {ν : Type} [DecidableEq ν]

def get (d : Folder ν) (n : ν) : Option File := (d.find? fun e => e.1 = n).map (·.2)

def remove (d : Folder ν) (n : ν) : Folder ν := d.filter fun e => e.1 ≠ n

def put (d : Folder ν) (n : ν) (f : File) : Folder ν := (n, f) :: d.remove n

/-- The file of `a`, if there is one, replaces whatever `b` names. -/
def rename (d : Folder ν) (a b : ν) : Folder ν :=
  match d.get a with
  | none => d
  | some f => (d.remove a).put b f

/-- A crash keeps `k n` bytes of each unsynced file `n`. -/
def crash (k : ν → ℕ) (d : Folder ν) : Folder ν :=
  d.map fun e => (e.1, if e.2.synced then e.2 else { e.2 with bytes := e.2.bytes.take (k e.1) })

def Distinct (d : Folder ν) : Prop := (d.map (·.1)).Nodup

/-- What lies under the names in `P`. -/
def contents (P : ν → Bool) (d : Folder ν) : Multiset (List UInt8) :=
  ((d.filter fun e => P e.1).map fun e => e.2.bytes : List (List UInt8))

/-! ### Reading back -/

theorem get_cons (n m : ν) (f : File) (d : Folder ν) :
    get ((n, f) :: d) m = if n = m then some f else get d m := by
  unfold get
  rw [List.find?_cons]
  by_cases h : n = m <;> simp [h]

theorem get_remove (d : Folder ν) (n m : ν) : (d.remove n).get m = if m = n then none else d.get m := by
  induction d with
  | nil => simp [remove, get]
  | cons e d ih =>
    obtain ⟨k, f⟩ := e
    unfold remove at ih ⊢
    rw [get_cons, List.filter_cons]
    by_cases hk : k = n
    · simp only [hk, ne_eq, not_true, decide_false, Bool.false_eq_true, if_false, ih]
      by_cases hm : m = n
      · simp [hm]
      · simp [hm, Ne.symm hm]
    · simp only [hk, ne_eq, not_false_iff, decide_true, if_true, get_cons, ih]
      by_cases hkm : k = m
      · have hm : m ≠ n := fun h => hk (hkm.trans h)
        simp [hkm, hm]
      · simp [hkm]

theorem get_put (d : Folder ν) (n m : ν) (f : File) :
    (d.put n f).get m = if m = n then some f else d.get m := by
  unfold put
  rw [get_cons, get_remove]
  by_cases h : m = n
  · simp [h]
  · simp [h, Ne.symm h]

theorem get_rename {d : Folder ν} {a b : ν} {f : File} (ha : d.get a = some f) (m : ν) :
    (d.rename a b).get m = if m = b then some f else if m = a then none else d.get m := by
  unfold rename
  rw [ha]
  simp only [get_put, get_remove]

theorem mem_of_get {d : Folder ν} {n : ν} {f : File} (h : d.get n = some f) : (n, f) ∈ d := by
  unfold get at h
  obtain ⟨e, he, rfl⟩ := Option.map_eq_some_iff.mp h
  have hn : e.1 = n := by simpa using List.find?_some he
  exact hn ▸ List.mem_of_find?_eq_some he

theorem get_of_mem {d : Folder ν} (hd : Distinct d) {n : ν} {f : File} (h : (n, f) ∈ d) :
    d.get n = some f := by
  induction d with
  | nil => simp at h
  | cons e d ih =>
    obtain ⟨k, g⟩ := e
    unfold Distinct at hd ih
    rw [List.map_cons, List.nodup_cons] at hd
    rw [get_cons]
    rcases List.mem_cons.mp h with h | h
    · cases h
      simp
    · have hne : k ≠ n := by
        rintro rfl
        exact hd.1 (List.mem_map.mpr ⟨_, h, rfl⟩)
      rw [if_neg hne]
      exact ih hd.2 h

theorem get_crash (k : ν → ℕ) (d : Folder ν) (n : ν) :
    (d.crash k).get n = (d.get n).map fun f =>
      if f.synced then f else { f with bytes := f.bytes.take (k n) } := by
  induction d with
  | nil => rfl
  | cons e d ih =>
    obtain ⟨m, f⟩ := e
    unfold crash at ih ⊢
    rw [List.map_cons, get_cons, get_cons, ih]
    by_cases h : m = n
    · simp only [h, if_true, Option.map_some]
    · simp [h]

/-! ### No name twice -/

theorem Distinct.remove {d : Folder ν} (h : Distinct d) (n : ν) : Distinct (d.remove n) :=
  h.sublist (List.Sublist.map _ List.filter_sublist)

theorem Distinct.put {d : Folder ν} (h : Distinct d) (n : ν) (f : File) : Distinct (d.put n f) := by
  unfold Distinct Folder.put
  rw [List.map_cons, List.nodup_cons]
  refine ⟨fun hin => ?_, h.remove n⟩
  obtain ⟨e, he, hn⟩ := List.mem_map.mp hin
  have hne := (List.mem_filter.mp he).2
  simp [hn] at hne

theorem Distinct.rename {d : Folder ν} (h : Distinct d) (a b : ν) : Distinct (d.rename a b) := by
  unfold Folder.rename
  split
  · exact h
  · exact (h.remove a).put b _

omit [DecidableEq ν] in
theorem Distinct.crash {d : Folder ν} (h : Distinct d) (k : ν → ℕ) : Distinct (d.crash k) := by
  unfold Distinct Folder.crash
  rw [List.map_map]
  exact h

/-! ### What lies where -/

theorem mem_contents {P : ν → Bool} {d : Folder ν} (hd : Distinct d) {x : List UInt8} :
    x ∈ contents P d ↔ ∃ n f, P n = true ∧ d.get n = some f ∧ f.bytes = x := by
  unfold contents
  rw [Multiset.mem_coe, List.mem_map]
  constructor
  · rintro ⟨⟨n, f⟩, he, rfl⟩
    obtain ⟨hmem, hP⟩ := List.mem_filter.mp he
    exact ⟨n, f, hP, get_of_mem hd hmem, rfl⟩
  · rintro ⟨n, f, hP, hget, rfl⟩
    exact ⟨(n, f), List.mem_filter.mpr ⟨mem_of_get hget, hP⟩, rfl⟩

theorem remove_of_get_none {d : Folder ν} {n : ν} (h : d.get n = none) : d.remove n = d := by
  refine List.filter_eq_self.mpr fun e he => ?_
  have hne : e.1 ≠ n := by
    rintro rfl
    unfold get at h
    rw [Option.map_eq_none_iff, List.find?_eq_none] at h
    simpa using h e he
  simpa using hne

theorem contents_remove_other {P : ν → Bool} {d : Folder ν} {n : ν} (hn : P n = false) :
    contents P (d.remove n) = contents P d := by
  unfold contents remove
  rw [List.filter_filter]
  have hsame : d.filter (fun e => P e.1 && decide (e.1 ≠ n)) = d.filter fun e => P e.1 := by
    refine List.filter_congr fun e _ => ?_
    by_cases he : e.1 = n
    · simp [he, hn]
    · simp [he]
  rw [hsame]

theorem contents_put_other {P : ν → Bool} {d : Folder ν} {n : ν} (hn : P n = false) (f : File) :
    contents P (d.put n f) = contents P d := by
  rw [← contents_remove_other (d := d) hn]
  unfold contents put
  rw [List.filter_cons_of_neg (by simp [hn])]

omit [DecidableEq ν] in
theorem contents_cons {P : ν → Bool} {d : Folder ν} {n : ν} (hn : P n = true) (f : File) :
    contents P ((n, f) :: d) = f.bytes ::ₘ contents P d := by
  unfold contents
  rw [List.filter_cons_of_pos (by simpa using hn)]
  rfl

/-- A new name adds its file. -/
theorem contents_put_fresh {P : ν → Bool} {d : Folder ν} {n : ν} (hn : P n = true)
    (h : d.get n = none) (f : File) : contents P (d.put n f) = f.bytes ::ₘ contents P d := by
  unfold put
  rw [contents_cons hn, remove_of_get_none h]

/-- Taking a name out takes its file out. -/
theorem contents_remove {P : ν → Bool} {n : ν} (hn : P n = true) {f : File} :
    ∀ {d : Folder ν}, Distinct d → d.get n = some f →
      contents P d = f.bytes ::ₘ contents P (d.remove n)
  | [], _, h => by simp [get] at h
  | (k, g) :: d, hd, h => by
    unfold Distinct at hd
    rw [List.map_cons, List.nodup_cons] at hd
    rw [get_cons] at h
    by_cases hk : k = n
    · subst hk
      rw [if_pos rfl] at h
      cases h
      have hout : get d k = none := by
        unfold get
        rw [Option.map_eq_none_iff, List.find?_eq_none]
        intro e he
        simp only [decide_eq_true_eq]
        exact fun heq => hd.1 (heq ▸ List.mem_map.mpr ⟨e, he, rfl⟩)
      have hrem : remove ((k, f) :: d) k = d := by
        rw [remove, List.filter_cons_of_neg (by simp)]
        exact remove_of_get_none hout
      rw [hrem, contents_cons hn]
    · rw [if_neg hk] at h
      have ih := contents_remove hn hd.2 h
      have hrem : remove ((k, g) :: d) n = (k, g) :: remove d n := by
        rw [remove, List.filter_cons_of_pos (by simpa using hk)]
        rfl
      rw [hrem]
      by_cases hPk : P k = true
      · rw [contents_cons hPk, contents_cons hPk, ih, Multiset.cons_swap]
      · have hskip : ∀ d' : Folder ν, contents P ((k, g) :: d') = contents P d' := by
          intro d'
          unfold contents
          rw [List.filter_cons_of_neg (by simpa using hPk)]
        rw [hskip, hskip, ih]

/-- Replacing a file takes the old bytes out and puts the new ones in. -/
theorem contents_put_over {P : ν → Bool} {d : Folder ν} {n : ν} (hn : P n = true) (hd : Distinct d)
    {old : File} (h : d.get n = some old) (f : File) :
    contents P (d.put n f) = f.bytes ::ₘ (contents P d).erase old.bytes := by
  rw [contents_remove hn hd h, Multiset.erase_cons_head]
  exact contents_cons hn f

/-- Moving a file to a free name within `P` loses nothing. -/
theorem contents_rename {P : ν → Bool} {d : Folder ν} {a b : ν} (ha : P a = true) (hb : P b = true)
    (hd : Distinct d) {f : File} (hget : d.get a = some f) (hfree : d.get b = none) :
    contents P (d.rename a b) = contents P d := by
  unfold rename
  rw [hget]
  have hfree' : (d.remove a).get b = none := by
    rw [get_remove, hfree]
    split <;> rfl
  show contents P ((d.remove a).put b f) = _
  rw [contents_put_fresh hb hfree', contents_remove ha hd hget]

omit [DecidableEq ν] in
/-- A crash spares what is synced. -/
theorem contents_crash {P : ν → Bool} {d : Folder ν} (k : ν → ℕ)
    (h : ∀ n f, P n = true → (n, f) ∈ d → f.synced = true) : contents P (d.crash k) = contents P d := by
  unfold contents crash
  rw [List.filter_map, List.map_map]
  have hfilter : d.filter ((fun e => P e.1) ∘ fun e : ν × File =>
      (e.1, if e.2.synced then e.2 else { e.2 with bytes := e.2.bytes.take (k e.1) })) =
      d.filter fun e => P e.1 := rfl
  rw [hfilter]
  congr 1
  refine List.map_congr_left fun e he => ?_
  obtain ⟨hmem, hP⟩ := List.mem_filter.mp he
  simp only [Function.comp_apply, h e.1 e.2 hP hmem, if_true]

/-! ### One file on the side -/

/-- Only the file `n` was written or removed. -/
inductive Aside (n : ν) (d : Folder ν) : Folder ν → Prop
  | refl : Aside n d d
  | put {d' : Folder ν} (f : File) : Aside n d d' → Aside n d (d'.put n f)
  | remove {d' : Folder ν} : Aside n d d' → Aside n d (d'.remove n)

theorem Aside.trans {n : ν} {d d' d'' : Folder ν} (h : Aside n d d') (h' : Aside n d' d'') :
    Aside n d d'' := by
  induction h' with
  | refl => exact h
  | put f _ ih => exact .put f ih
  | remove _ ih => exact .remove ih

theorem Aside.get {n : ν} {d d' : Folder ν} (h : Aside n d d') {m : ν} (hm : m ≠ n) :
    d'.get m = d.get m := by
  induction h with
  | refl => rfl
  | put f _ ih => rw [get_put, if_neg hm, ih]
  | remove _ ih => rw [get_remove, if_neg hm, ih]

theorem Aside.distinct {n : ν} {d d' : Folder ν} (h : Aside n d d') (hd : Distinct d) : Distinct d' := by
  induction h with
  | refl => exact hd
  | put f _ ih => exact ih.put n f
  | remove _ ih => exact ih.remove n

theorem Aside.contents {n : ν} {d d' : Folder ν} (h : Aside n d d') {P : ν → Bool} (hn : P n = false) :
    contents P d' = contents P d := by
  induction h with
  | refl => rfl
  | put f _ ih => rw [contents_put_other hn, ih]
  | remove _ ih => rw [contents_remove_other hn, ih]

end Folder

/-! ### File calls -/

/-- The calls that can fail. -/
inductive IoCall where
  | createDir
  | remove
  | create
  | write
  | sync
  | rename
  | stat
  | setPermissions
deriving DecidableEq

/-- A write that fails says how much of it was written; the others succeed or not. -/
abbrev IoAnswer : IoCall → Type
  | .write => Option ℕ
  | _ => Bool

/-- A program over a folder and what else the program keeps. -/
abbrev Io (ν γ : Type) : Type → Type := Proc (Folder ν × γ) IoCall IoAnswer

namespace Io

open Proc

variable {ν γ : Type} [DecidableEq ν]

/-- Change the folder. -/
def onFolder (f : Folder ν → Folder ν) : Io ν γ Unit := act fun s => ((), f s.1, s.2)

/-- `remove_file`, its failure ignored. -/
def removeFile (n : ν) : Io ν γ Unit := do
  if ← query .remove then onFolder (·.remove n) else pure ()

/-- Open for writing, created or truncated. -/
def createTruncate (n : ν) : Io ν γ Bool := do
  if ← query .create then
    onFolder (·.put n ⟨[], false⟩)
    pure true
  else pure false

/-- `write_all`: all the bytes, or the first of them and a failure. -/
def writeAll (n : ν) (bytes : List UInt8) : Io ν γ Bool := do
  let cut : Option ℕ ← query IoCall.write
  match cut with
  | none =>
    onFolder (·.put n ⟨bytes, false⟩)
    pure true
  | some k =>
    onFolder (·.put n ⟨bytes.take k, false⟩)
    pure false

def syncAll (n : ν) (bytes : List UInt8) : Io ν γ Bool := do
  if ← query .sync then
    onFolder (·.put n ⟨bytes, true⟩)
    pure true
  else pure false

/-- Create, write and sync a whole file; stops at the first failure. -/
def writeSynced (n : ν) (bytes : List UInt8) : Io ν γ Bool := do
  if !(← createTruncate n) then return false
  if !(← writeAll n bytes) then return false
  syncAll n bytes

/-! ### What the calls keep -/

section Rules

variable {ans : ∀ q, IoAnswer q → Prop} {I : Folder ν × γ → Prop}

omit [DecidableEq ν] in
theorem onFolder_keeps {f : Folder ν → Folder ν} {post : Unit → Folder ν × γ → Prop} {s : Folder ν × γ}
    (h : I s → I (f s.1, s.2) ∧ post () (f s.1, s.2)) : Keeps ans I (onFolder f) post s := by
  rintro t rfl hI
  exact h hI

/-- A file on the side may go or stay. -/
theorem removeFile_keeps {n : ν} {s : Folder ν × γ} (hI : ∀ d, Folder.Aside n s.1 d → I (d, s.2)) :
    Keeps ans I (removeFile n) (fun _ t => Folder.Aside n s.1 t.1 ∧ t.2 = s.2) s := by
  unfold removeFile
  refine holds_bind.mpr (holds_query.mpr ?_)
  intro ok _
  by_cases h : ok = true
  · rw [if_pos h]
    exact onFolder_keeps fun _ => ⟨hI _ (.remove .refl), .remove .refl, rfl⟩
  · rw [if_neg h]
    exact ⟨.refl, rfl⟩

theorem createTruncate_keeps {n : ν} {s : Folder ν × γ} (hI : ∀ d, Folder.Aside n s.1 d → I (d, s.2)) :
    Keeps ans I (createTruncate n) (fun _ t => Folder.Aside n s.1 t.1 ∧ t.2 = s.2) s := by
  unfold createTruncate
  refine holds_bind.mpr (holds_query.mpr ?_)
  intro ok _
  by_cases h : ok = true
  · rw [if_pos h]
    refine holds_bind.mpr ?_
    exact onFolder_keeps fun _ => ⟨hI _ (.put _ .refl), .put _ .refl, rfl⟩
  · rw [if_neg h]
    exact ⟨.refl, rfl⟩

theorem writeAll_keeps {n : ν} {bytes : List UInt8} {s : Folder ν × γ}
    (hI : ∀ d, Folder.Aside n s.1 d → I (d, s.2)) :
    Keeps ans I (writeAll n bytes) (fun _ t => Folder.Aside n s.1 t.1 ∧ t.2 = s.2) s := by
  unfold writeAll
  refine holds_bind.mpr (holds_query.mpr ?_)
  intro cut _
  cases cut with
  | none =>
    simp only [holds_bind]
    exact onFolder_keeps fun _ => ⟨hI _ (.put _ .refl), .put _ .refl, rfl⟩
  | some k =>
    simp only [holds_bind]
    exact onFolder_keeps fun _ => ⟨hI _ (.put _ .refl), .put _ .refl, rfl⟩

theorem syncAll_keeps {n : ν} {bytes : List UInt8} {s : Folder ν × γ}
    (hI : ∀ d, Folder.Aside n s.1 d → I (d, s.2)) :
    Keeps ans I (syncAll n bytes) (fun ok t => Folder.Aside n s.1 t.1 ∧ t.2 = s.2 ∧
      (ok = true → t.1.get n = some ⟨bytes, true⟩)) s := by
  unfold syncAll
  refine holds_bind.mpr (holds_query.mpr ?_)
  intro ok _
  by_cases h : ok = true
  · rw [if_pos h]
    refine holds_bind.mpr ?_
    refine onFolder_keeps fun _ => ⟨hI _ (.put _ .refl), .put _ .refl, rfl, fun _ => ?_⟩
    simp [Folder.get_put]
  · rw [if_neg h]
    exact ⟨.refl, rfl, by simp⟩

/-- Writing a whole file touches that file only, and leaves it synced if it succeeds. -/
theorem writeSynced_keeps {n : ν} {bytes : List UInt8} {s : Folder ν × γ}
    (hI : ∀ d, Folder.Aside n s.1 d → I (d, s.2)) :
    Keeps ans I (writeSynced n bytes) (fun ok t => Folder.Aside n s.1 t.1 ∧ t.2 = s.2 ∧
      (ok = true → t.1.get n = some ⟨bytes, true⟩)) s := by
  have hnext : ∀ {t : Folder ν × γ}, Folder.Aside n s.1 t.1 → t.2 = s.2 →
      ∀ d, Folder.Aside n t.1 d → I (d, t.2) := by
    intro t ha ht d hd
    rw [ht]
    exact hI d (ha.trans hd)
  unfold writeSynced
  refine holds_bind.mpr ?_
  refine (createTruncate_keeps hI).mono ?_
  rintro created t ⟨ha, ht⟩
  by_cases hc : created = true
  · simp only [hc, Bool.not_true, Bool.false_eq_true, if_false, holds_bind]
    refine (writeAll_keeps (hnext ha ht)).mono ?_
    rintro written u ⟨ha', hu⟩
    by_cases hw : written = true
    · simp only [hw, Bool.not_true, Bool.false_eq_true, if_false]
      refine (syncAll_keeps (hnext (ha.trans ha') (hu.trans ht))).mono ?_
      rintro ok v ⟨ha'', hv, hok⟩
      exact ⟨(ha.trans ha').trans ha'', (hv.trans hu).trans ht, hok⟩
    · simp only [hw, Bool.not_false, if_true, holds_pure]
      exact ⟨ha.trans ha', hu.trans ht, by simp⟩
  · simp only [hc, Bool.not_false, if_true, holds_pure]
    exact ⟨ha, ht, by simp⟩

end Rules

end Io
