/-
# The wallet's files on disk

`gui/src/storage.rs`: `save` re-seals the open wallet through a temporary and a rename,
`replace_archiving` sets the wallet file aside under a free archive name before another one
is written, and moves it back if that fails, and `export_bytes` writes a copy outside the
wallet's folder. Each is a program over the folder that may fail at every call and may be
stopped at every point. `Kept.owed` is a ghost: the envelopes that were installed at the
wallet path and not superseded by a later `save` of the same wallet.

Key definitions: `fileStem`, `archivePath`, `findArchives`, `writeEnvelope`, `save`,
`replaceArchiving`, `exportBytes`, `StorageStep`.
Key theorems: `archivePath_free`, `writeEnvelope_keeps`, `replaceArchiving_keeps`,
`wallet_files_survive`.
-/
import Alphanumeric.Lib.Disk
import Alphanumeric.Types
import Mathlib.Data.Char
import Mathlib.Data.List.Lex

namespace Alphanumeric

namespace Storage

open Proc Folder

/-! ### Names -/

/-- `Path::file_stem`: what precedes the last dot, unless that dot comes first. -/
def fileStem (name : Text) : Text :=
  match name.reverse.dropWhile (· ≠ '.') with
  | _ :: c :: before => (c :: before).reverse
  | _ => name

def withExtension (name extension : Text) : Text := fileStem name ++ '.' :: extension

def enc : Text := ['.', 'e', 'n', 'c']

def temporaryName (wallet : Text) : Text :=
  withExtension wallet ['e', 'n', 'c', '.', 't', 'm', 'p']

/-- The first archive name of a stamp, and the numbered ones after it. -/
def archiveName (wallet stamp : Text) (number : Option ℕ) : Text :=
  fileStem wallet ++ '-' :: (stamp ++
    (match number with
      | none => []
      | some n => '-' :: Nat.toDigits 10 n) ++ enc)

/-- `archive_path`: the first name that is not taken. `count` numbered names are tried; one
more than there are files is enough. -/
def archivePath (wallet stamp : Text) (taken : Text → Bool) (count : ℕ) : Text :=
  if !taken (archiveName wallet stamp none) then archiveName wallet stamp none
  else
    (((List.range count).map fun i => archiveName wallet stamp (some (i + 2))).find?
      (!taken ·)).getD (archiveName wallet stamp none)

/-- The names `find_archives` looks for. -/
def isArchive (wallet name : Text) : Bool :=
  (fileStem wallet ++ ['-']).isPrefixOf name && enc.isSuffixOf name

def findArchives (wallet : Text) (d : Folder Text) : List Text :=
  ((d.map (·.1)).filter (isArchive wallet)).mergeSort fun a b => decide (a ≤ b)

/-- The wallet path and its archives. -/
def isSafe (wallet name : Text) : Bool := name == wallet || isArchive wallet name

/-! ### The calls -/

structure Kept where
  /-- Files outside the wallet's folder. -/
  copies : Folder Text
  owed : Multiset (List UInt8)

abbrev State : Type := Folder Text × Kept

inductive StorageError where
  | seal
  | createDirectory
  | write
  | replace
  | check
  | setAside
  | rollback (e : StorageError)
  | isWalletFile
  | inWalletFolder
  | exportFailed
deriving DecidableEq

abbrev StorageM : Type → Type := Io Text Kept

/-- The rename that puts an envelope at the wallet path. -/
def install (wallet : Text) (superseding : Bool) (envelope : List UInt8) (s : State) : State :=
  (s.1.rename (temporaryName wallet) wallet,
    { s.2 with
      owed := envelope ::ₘ
        (match superseding, s.1.get wallet with
          | true, some old => s.2.owed.erase old.bytes
          | _, _ => s.2.owed) })

/-- `write_envelope`; `superseding` says whether the caller re-seals the wallet that is there. -/
def writeEnvelope (wallet : Text) (superseding : Bool) (envelope : List UInt8) :
    StorageM (Except StorageError Unit) := do
  if !(← query .createDir) then return .error .createDirectory
  Io.removeFile (temporaryName wallet)
  if !(← Io.writeSynced (temporaryName wallet) envelope) then
    Io.removeFile (temporaryName wallet)
    return .error .write
  if ← query .rename then
    act fun s => ((), install wallet superseding envelope s)
    return .ok ()
  else
    Io.removeFile (temporaryName wallet)
    return .error .replace

/-- `save`: seal (`none` is a seal that failed) and write. -/
def saveAs (wallet : Text) (superseding : Bool) (sealed : Option (List UInt8)) :
    StorageM (Except StorageError Unit) :=
  match sealed with
  | none => pure (.error .seal)
  | some envelope => writeEnvelope wallet superseding envelope

def save (wallet : Text) (sealed : Option (List UInt8)) : StorageM (Except StorageError Unit) :=
  saveAs wallet true sealed

/-- Move the archive back after a failed write. -/
def rollBack (wallet : Text) (archived : Option Text) (e : StorageError) :
    StorageM (Except StorageError (Option Text)) :=
  match archived with
  | none => pure (.error e)
  | some archive => do
    if ← query .rename then
      Io.onFolder (·.rename archive wallet)
      return .error e
    else return .error (.rollback e)

/-- Install over what was set aside. -/
def installOver (wallet : Text) (sealed : Option (List UInt8)) (archived : Option Text) :
    StorageM (Except StorageError (Option Text)) := do
  match ← saveAs wallet false sealed with
  | .ok () => return .ok archived
  | .error e => rollBack wallet archived e

/-- `replace_archiving` with a `write` that saves or writes an envelope. -/
def replaceArchiving (wallet stamp : Text) (sealed : Option (List UInt8)) :
    StorageM (Except StorageError (Option Text)) := do
  if !(← query .stat) then return .error .check
  if ← read fun s => (s.1.get wallet).isSome then
    let archive ← read fun s =>
      archivePath wallet stamp (fun name => (s.1.get name).isSome) (s.1.length + 1)
    if ← query .rename then
      Io.onFolder (·.rename wallet archive)
      installOver wallet sealed (some archive)
    else return .error .setAside
  else installOver wallet sealed none

/-- A place the user picks: a name in the wallet's folder, or a path elsewhere. -/
inductive Destination where
  | inside (name : Text)
  | elsewhere (path : Text)
deriving DecidableEq

def onCopies (f : Folder Text → Folder Text) : StorageM Unit :=
  act fun s => ((), s.1, { s.2 with copies := f s.2.copies })

def exportBytes (wallet : Text) (envelope : List UInt8) :
    Destination → StorageM (Except StorageError Unit)
  | .inside name => pure (.error (if name = wallet then .isWalletFile else .inWalletFolder))
  | .elsewhere path => do
    if !(← query .create) then return .error .exportFailed
    onCopies (·.put path ⟨[], false⟩)
    if !(← query .setPermissions) then return .error .exportFailed
    let cut : Option ℕ ← query IoCall.write
    onCopies (·.put path ⟨envelope.take (cut.getD envelope.length), false⟩)
    if cut.isSome then return .error .exportFailed
    if !(← query .sync) then return .error .exportFailed
    onCopies (·.put path ⟨envelope, true⟩)
    return .ok ()

inductive StorageCall where
  | save (sealed : Option (List UInt8))
  | replaceArchiving (stamp : Text) (sealed : Option (List UInt8))
  | exportBytes (envelope : List UInt8) (dest : Destination)

/-- A call, its result in one type. -/
def StorageCall.program (wallet : Text) : StorageCall → StorageM (Except StorageError (Option Text))
  | .save sealed => do return (← Storage.save wallet sealed).map fun _ => none
  | .replaceArchiving stamp sealed => Storage.replaceArchiving wallet stamp sealed
  | .exportBytes envelope dest => do return (← Storage.exportBytes wallet envelope dest).map fun _ => none

/-- A call that returned, or one that a crash stopped. -/
inductive StorageEvent where
  | returned (c : StorageCall) (r : Except StorageError (Option Text))
  | crashed (c : StorageCall)

def StorageEvent.call : StorageEvent → StorageCall
  | .returned c _ => c
  | .crashed c => c

def anyAnswer : ∀ q, IoAnswer q → Prop := fun _ _ => True

inductive StorageStep (wallet : Text) : State → StorageEvent → State → Prop
  | returned {c : StorageCall} {r : Except StorageError (Option Text)} {s t : State} :
    Exec anyAnswer (c.program wallet) s r t → StorageStep wallet s (.returned c r) t
  | crashed {c : StorageCall} {s t : State} (k k' : Text → ℕ) :
    Stopped anyAnswer (c.program wallet) s t →
    StorageStep wallet s (.crashed c) (t.1.crash k, { t.2 with copies := t.2.copies.crash k' })

/-! ### Names that cannot meet -/

/-- A name is its stem and either nothing or an extension without a dot. -/
theorem fileStem_split (name : Text) : ∃ rest, name = fileStem name ++ rest ∧
    (rest = [] ∨ ∃ after, rest = '.' :: after ∧ '.' ∉ after) := by
  have hsplit := List.takeWhile_append_dropWhile (p := fun c : Char => decide (c ≠ '.')) (l := name.reverse)
  have hafter : '.' ∉ (name.reverse.takeWhile fun c : Char => decide (c ≠ '.')) := by
    intro h
    have hall := List.all_takeWhile (p := fun c : Char => decide (c ≠ '.')) (l := name.reverse)
    simpa using List.all_eq_true.mp hall '.' h
  unfold fileStem
  split
  · rename_i d c before hdrop
    have hd : d = '.' := by
      have hhead := List.head?_dropWhile_not (fun c : Char => decide (c ≠ '.')) name.reverse
      rw [hdrop] at hhead
      simpa using hhead
    rw [hdrop, hd] at hsplit
    refine ⟨'.' :: (name.reverse.takeWhile fun c : Char => decide (c ≠ '.')).reverse, ?_, .inr ⟨_, rfl, ?_⟩⟩
    · have hrev := congrArg List.reverse hsplit
      rw [List.reverse_reverse, List.reverse_append, List.reverse_cons, List.append_assoc] at hrev
      exact hrev.symm
    · simpa using hafter
  · exact ⟨[], by simp, .inl rfl⟩

theorem isArchive_archiveName (wallet stamp : Text) (number : Option ℕ) :
    isArchive wallet (archiveName wallet stamp number) = true := by
  unfold isArchive archiveName
  rw [Bool.and_eq_true, List.isPrefixOf_iff_prefix, List.isSuffixOf_iff_suffix]
  constructor
  · exact ⟨_, (List.append_assoc ..).trans rfl⟩
  · refine ⟨fileStem wallet ++ '-' :: (stamp ++ (match number with
      | none => []
      | some n => '-' :: Nat.toDigits 10 n)), ?_⟩
    simp only [List.append_assoc, List.cons_append]

theorem not_isArchive_of_split {wallet rest : Text} (h : rest.head? ≠ some '-') :
    isArchive wallet (fileStem wallet ++ rest) = false := by
  unfold isArchive
  rw [Bool.and_eq_false_iff]
  refine .inl (Bool.eq_false_iff.mpr fun hp => ?_)
  rw [List.isPrefixOf_iff_prefix] at hp
  obtain ⟨t, ht⟩ := (List.prefix_append_right_inj (fileStem wallet)).mp hp
  exact h (by rw [← ht]; rfl)

theorem not_isArchive_wallet (wallet : Text) : isArchive wallet wallet = false := by
  obtain ⟨rest, hw, hrest⟩ := fileStem_split wallet
  rw [show isArchive wallet wallet = isArchive wallet (fileStem wallet ++ rest) by rw [← hw]]
  refine not_isArchive_of_split ?_
  rcases hrest with rfl | ⟨after, rfl, -⟩ <;> simp

theorem not_isArchive_temporaryName (wallet : Text) : isArchive wallet (temporaryName wallet) = false :=
  not_isArchive_of_split (by simp)

theorem temporaryName_ne_wallet (wallet : Text) : temporaryName wallet ≠ wallet := by
  intro h
  obtain ⟨rest, hw, hrest⟩ := fileStem_split wallet
  have hsame : fileStem wallet ++ '.' :: ['e', 'n', 'c', '.', 't', 'm', 'p'] = fileStem wallet ++ rest := by
    rw [← hw]
    exact h
  have hext := List.append_cancel_left hsame
  rcases hrest with rfl | ⟨after, rfl, hdot⟩
  · simp at hext
  · simp only [List.cons.injEq, true_and] at hext
    exact hdot (by simp [← hext])

@[simp] theorem isSafe_wallet (wallet : Text) : isSafe wallet wallet = true := by simp [isSafe]

@[simp] theorem isSafe_temporaryName (wallet : Text) : isSafe wallet (temporaryName wallet) = false := by
  simp [isSafe, temporaryName_ne_wallet, not_isArchive_temporaryName]

theorem isSafe_of_isArchive {wallet name : Text} (h : isArchive wallet name = true) :
    isSafe wallet name = true := by simp [isSafe, h]

theorem archiveName_injective (wallet stamp : Text) {m n : ℕ}
    (h : archiveName wallet stamp (some m) = archiveName wallet stamp (some n)) : m = n := by
  unfold archiveName at h
  simp only [List.append_cancel_left_eq, List.cons.injEq, true_and, List.append_cancel_right_eq] at h
  calc m = Nat.ofDigitChars 10 (Nat.toDigits 10 m) 0 := Nat.ofDigitChars_ten_toDigits.symm
    _ = Nat.ofDigitChars 10 (Nat.toDigits 10 n) 0 := by rw [h]
    _ = n := Nat.ofDigitChars_ten_toDigits

theorem isArchive_archivePath (wallet stamp : Text) (taken : Text → Bool) (count : ℕ) :
    isArchive wallet (archivePath wallet stamp taken count) = true := by
  unfold archivePath
  split
  · exact isArchive_archiveName ..
  · cases hfind : (((List.range count).map fun i => archiveName wallet stamp (some (i + 2))).find?
      (!taken ·)) with
    | none =>
      rw [Option.getD_none]
      exact isArchive_archiveName ..
    | some name =>
      rw [Option.getD_some]
      obtain ⟨i, -, rfl⟩ := List.mem_map.mp (List.mem_of_find?_eq_some hfind)
      exact isArchive_archiveName ..

/-- **The archive name is free.** One more candidate than there are names cannot all be taken. -/
theorem archivePath_free {wallet stamp : Text} {d : Folder Text} :
    d.get (archivePath wallet stamp (fun name => (d.get name).isSome) (d.length + 1)) = none := by
  unfold archivePath
  split
  · rename_i h
    simpa using h
  · cases hfind : (((List.range (d.length + 1)).map fun i => archiveName wallet stamp (some (i + 2))).find?
      (fun name => !(d.get name).isSome)) with
    | some name => simpa using List.find?_some hfind
    | none =>
      rw [List.find?_eq_none] at hfind
      have hnodup : ((List.range (d.length + 1)).map fun i =>
          archiveName wallet stamp (some (i + 2))).Nodup := by
        refine List.nodup_range.map fun i j hij => ?_
        have hnum := archiveName_injective wallet stamp hij
        omega
      have hsub : ((List.range (d.length + 1)).map fun i =>
          archiveName wallet stamp (some (i + 2))) ⊆ d.map (·.1) := by
        intro name hname
        have htaken : (d.get name).isSome = true := by
          simpa [Option.isSome_iff_ne_none] using hfind name hname
        obtain ⟨f, hf⟩ := Option.isSome_iff_exists.mp htaken
        exact List.mem_map.mpr ⟨_, mem_of_get hf, rfl⟩
      have hlen := (hnodup.subperm hsub).length_le
      simp at hlen

/-! ### Nothing is lost -/

/-- Under the safe names lie the owed envelopes and nothing else, all of them synced. -/
structure Sound (wallet : Text) (s : State) : Prop where
  distinct : Distinct s.1
  synced : ∀ n f, isSafe wallet n = true → s.1.get n = some f → f.synced = true
  owed : contents (isSafe wallet) s.1 = s.2.owed

/-- The envelope a call installs. -/
def StorageCall.envelope : StorageCall → Option (List UInt8)
  | .save sealed => sealed
  | .replaceArchiving _ sealed => sealed
  | .exportBytes _ _ => none

/-- The path outside the wallet's folder that a call writes. -/
def StorageCall.path : StorageCall → Option Text
  | .exportBytes _ (.elsewhere path) => some path
  | _ => none

/-- What the call `c` from `s₀` keeps, wherever it is stopped. -/
structure Survives (wallet : Text) (c : StorageCall) (s₀ s : State) : Prop where
  sound : Sound wallet s
  archives : ∀ n f, isArchive wallet n = true → s₀.1.get n = some f → s.1.get n = some f
  owed : ∀ x ∈ s.2.owed, x ∈ s₀.2.owed ∨ c.envelope = some x
  copies : ∀ p, c.path ≠ some p → s.2.copies.get p = s₀.2.copies.get p

theorem Sound.survives {wallet : Text} {s : State} (h : Sound wallet s) (c : StorageCall) :
    Survives wallet c s s := ⟨h, fun _ _ _ h => h, fun _ h => .inl h, fun _ _ => rfl⟩

section Moves

variable {wallet : Text} {c : StorageCall} {s₀ s : State}

theorem Survives.aside (h : Survives wallet c s₀ s) {d : Folder Text}
    (hd : Aside (temporaryName wallet) s.1 d) : Survives wallet c s₀ (d, s.2) := by
  have hget : ∀ n, isSafe wallet n = true → d.get n = s.1.get n := by
    intro n hn
    refine hd.get ?_
    rintro rfl
    simp at hn
  refine ⟨⟨hd.distinct h.sound.distinct, fun n f hn hf => ?_, ?_⟩, fun n f hn hf => ?_, h.owed, h.copies⟩
  · exact h.sound.synced n f hn (hget n hn ▸ hf)
  · rw [← h.sound.owed]
    exact hd.contents (isSafe_temporaryName wallet)
  · show d.get n = some f
    rw [hget n (isSafe_of_isArchive hn)]
    exact h.archives n f hn hf

theorem contents_install {wallet : Text} {superseding : Bool} {envelope : List UInt8} {s : State}
    (h : Sound wallet s) (htmp : s.1.get (temporaryName wallet) = some ⟨envelope, true⟩)
    (hover : superseding = true ∨ s.1.get wallet = none) :
    contents (isSafe wallet) (install wallet superseding envelope s).1 =
      (install wallet superseding envelope s).2.owed := by
  have hdrop : contents (isSafe wallet) (s.1.remove (temporaryName wallet)) = s.2.owed := by
    rw [contents_remove_other (isSafe_temporaryName wallet), h.owed]
  have hget : (s.1.remove (temporaryName wallet)).get wallet = s.1.get wallet := by
    rw [get_remove, if_neg (temporaryName_ne_wallet wallet).symm]
  unfold install Folder.rename
  rw [htmp]
  simp only
  cases hw : s.1.get wallet with
  | none =>
    rw [contents_put_fresh (isSafe_wallet wallet) (hget.trans hw), hdrop]
    cases superseding <;> rfl
  | some old =>
    have hs : superseding = true := by simpa [hw] using hover
    rw [contents_put_over (isSafe_wallet wallet) (h.distinct.remove _) (hget.trans hw), hdrop, hs]

theorem Survives.install {superseding : Bool} {envelope : List UInt8} (h : Survives wallet c s₀ s)
    (htmp : s.1.get (temporaryName wallet) = some ⟨envelope, true⟩)
    (hover : superseding = true ∨ s.1.get wallet = none) (hc : c.envelope = some envelope) :
    Survives wallet c s₀ (install wallet superseding envelope s) := by
  have hget : ∀ n, (Storage.install wallet superseding envelope s).1.get n =
      if n = wallet then some ⟨envelope, true⟩ else if n = temporaryName wallet then none else s.1.get n :=
    get_rename htmp
  have hkept : ∀ x ∈ (Storage.install wallet superseding envelope s).2.owed, x = envelope ∨ x ∈ s.2.owed := by
    intro x hx
    rcases Multiset.mem_cons.mp hx with rfl | hx
    · exact .inl rfl
    · refine .inr ?_
      split at hx
      · exact Multiset.mem_of_mem_erase hx
      · exact hx
  refine ⟨⟨h.sound.distinct.rename _ _, fun n f hn hf => ?_, contents_install h.sound htmp hover⟩,
    fun n f hn hf => ?_, fun x hx => ?_, h.copies⟩
  · rw [hget] at hf
    split at hf
    · cases hf
      rfl
    · split at hf
      · simp at hf
      · exact h.sound.synced n f hn hf
  · have hw : n ≠ wallet := by
      rintro rfl
      simp [not_isArchive_wallet] at hn
    have ht : n ≠ temporaryName wallet := by
      rintro rfl
      simp [not_isArchive_temporaryName] at hn
    rw [hget, if_neg hw, if_neg ht]
    exact h.archives n f hn hf
  · rcases hkept x hx with rfl | hx
    · exact .inr hc
    · exact h.owed x hx

/-- A move between safe names, to a free one, from one that was no archive before the call. -/
theorem Survives.move (h : Survives wallet c s₀ s) {a b : Text} {f : File} (ha : isSafe wallet a = true)
    (hb : isSafe wallet b = true) (hget : s.1.get a = some f) (hfree : s.1.get b = none)
    (hnew : isArchive wallet a = true → s₀.1.get a = none) :
    Survives wallet c s₀ (s.1.rename a b, s.2) := by
  refine ⟨⟨h.sound.distinct.rename a b, fun n g hn hg => ?_, ?_⟩, fun n g hn hg => ?_, h.owed, h.copies⟩
  · rw [get_rename hget] at hg
    split at hg
    · cases hg
      exact h.sound.synced a f ha hget
    · split at hg
      · simp at hg
      · exact h.sound.synced n g hn hg
  · rw [contents_rename ha hb h.sound.distinct hget hfree, h.sound.owed]
  · have hold := h.archives n g hn hg
    have hnb : n ≠ b := by
      rintro rfl
      simp [hold] at hfree
    have hna : n ≠ a := by
      rintro rfl
      simp [hnew hn] at hg
    show (s.1.rename a b).get n = some g
    rw [get_rename hget, if_neg hnb, if_neg hna]
    exact hold

theorem Survives.writeCopy (h : Survives wallet c s₀ s) {path : Text} (hc : c.path = some path) (f : File) :
    Survives wallet c s₀ (s.1, { s.2 with copies := s.2.copies.put path f }) := by
  refine ⟨⟨h.sound.distinct, h.sound.synced, h.sound.owed⟩, h.archives, h.owed, fun p hp => ?_⟩
  have hne : p ≠ path := by
    rintro rfl
    exact hp hc
  show (s.2.copies.put path f).get p = _
  rw [get_put, if_neg hne]
  exact h.copies p hp

end Moves

/-! ### The calls keep it -/

section Calls

variable {ans : ∀ q, IoAnswer q → Prop} {wallet : Text} {c : StorageCall} {s₀ s : State}

/-- A failed write leaves at most its temporary behind. -/
theorem writeEnvelope_keeps {superseding : Bool} {envelope : List UInt8} (h : Survives wallet c s₀ s)
    (hover : superseding = true ∨ s.1.get wallet = none) (hc : c.envelope = some envelope) :
    Keeps ans (Survives wallet c s₀) (writeEnvelope wallet superseding envelope)
      (fun r t => r ≠ .ok () → Aside (temporaryName wallet) s.1 t.1 ∧ t.2 = s.2) s := by
  have hnext : ∀ {t : State}, Aside (temporaryName wallet) s.1 t.1 → t.2 = s.2 →
      ∀ d, Aside (temporaryName wallet) t.1 d → Survives wallet c s₀ (d, t.2) := by
    intro t ha ht d hd
    rw [ht]
    exact h.aside (ha.trans hd)
  -- the temporary is removed on every way out
  have hcleanup : ∀ {t : State} (e : StorageError), Aside (temporaryName wallet) s.1 t.1 → t.2 = s.2 →
      Keeps ans (Survives wallet c s₀)
        (do Io.removeFile (temporaryName wallet); return (.error e : Except StorageError Unit))
        (fun r t => r ≠ .ok () → Aside (temporaryName wallet) s.1 t.1 ∧ t.2 = s.2) t := by
    intro t e ha ht
    refine holds_bind.mpr ((Io.removeFile_keeps (hnext ha ht)).mono ?_)
    rintro - u ⟨ha', hu⟩ -
    exact ⟨ha.trans ha', hu.trans ht⟩
  unfold writeEnvelope
  refine holds_bind.mpr (holds_query.mpr fun made _ => ?_)
  by_cases hmade : made = true
  · simp only [hmade, Bool.not_true, Bool.false_eq_true, if_false]
    refine holds_bind.mpr ((Io.removeFile_keeps (hnext .refl rfl)).mono ?_)
    rintro - t ⟨ha, ht⟩
    refine holds_bind.mpr ((Io.writeSynced_keeps (hnext ha ht)).mono ?_)
    rintro written u ⟨ha', hu, hfile⟩
    have hau := ha.trans ha'
    have hsu := hu.trans ht
    by_cases hw : written = true
    · simp only [hw, Bool.not_true, Bool.false_eq_true, if_false]
      refine holds_bind.mpr (holds_query.mpr fun renamed _ => ?_)
      by_cases hr : renamed = true
      · simp only [hr, if_true]
        refine holds_bind.mpr (holds_act.mpr ?_)
        rintro _ rfl hu'
        refine ⟨hu'.install (hfile hw) ?_ hc, by simp⟩
        rwa [hau.get (temporaryName_ne_wallet wallet).symm]
      · simp only [hr]
        exact hcleanup _ hau hsu
    · simp only [hw, Bool.not_false, if_true]
      exact hcleanup _ hau hsu
  · simp only [hmade, Bool.not_false, if_true]
    exact fun _ => ⟨.refl, rfl⟩

theorem saveAs_keeps {superseding : Bool} {sealed : Option (List UInt8)} (h : Survives wallet c s₀ s)
    (hover : superseding = true ∨ s.1.get wallet = none) (hc : c.envelope = sealed) :
    Keeps ans (Survives wallet c s₀) (saveAs wallet superseding sealed)
      (fun r t => r ≠ .ok () → Aside (temporaryName wallet) s.1 t.1 ∧ t.2 = s.2) s := by
  cases sealed with
  | none => exact fun _ => ⟨.refl, rfl⟩
  | some envelope => exact writeEnvelope_keeps h hover hc

/-- Unless the move back failed, an error leaves the wallet path as it was before the call. -/
def Unchanged (wallet : Text) (before : Option File) (r : Except StorageError (Option Text)) (t : State) :
    Prop :=
  ∀ e, r = .error e → (∀ e', e ≠ .rollback e') → t.1.get wallet = before

theorem installOver_keeps {sealed : Option (List UInt8)} {archived : Option Text}
    (h : Survives wallet c s₀ s) (hempty : s.1.get wallet = none) (hc : c.envelope = sealed)
    (hback : ∀ archive, archived = some archive → isArchive wallet archive = true ∧
      s.1.get archive = s₀.1.get wallet ∧ (s₀.1.get wallet).isSome = true ∧ s₀.1.get archive = none)
    (hnone : archived = none → s₀.1.get wallet = none) :
    Keeps ans (Survives wallet c s₀) (installOver wallet sealed archived)
      (Unchanged wallet (s₀.1.get wallet)) s := by
  unfold installOver
  refine holds_bind.mpr ((saveAs_keeps h (.inr hempty) hc).mono ?_)
  rintro (e | u) t hfail
  · obtain ⟨ha, ht⟩ := hfail (by simp)
    have hwallet : t.1.get wallet = none := (ha.get (temporaryName_ne_wallet wallet).symm).trans hempty
    cases archived with
    | none => exact fun _ _ _ => hwallet.trans (hnone rfl).symm
    | some archive =>
      obtain ⟨harch, hget, hsome, hnew⟩ := hback archive rfl
      have htmp : archive ≠ temporaryName wallet := by
        rintro rfl
        simp [not_isArchive_temporaryName] at harch
      obtain ⟨f, hf⟩ := Option.isSome_iff_exists.mp hsome
      have hget' : t.1.get archive = some f := by rw [ha.get htmp, hget, hf]
      refine holds_bind.mpr (holds_query.mpr fun renamed _ => ?_)
      by_cases hr : renamed = true
      · simp only [hr, if_true]
        refine holds_bind.mpr (Io.onFolder_keeps fun ht' => ⟨?_, fun _ _ _ => ?_⟩)
        · exact ht'.move (isSafe_of_isArchive harch) (isSafe_wallet wallet) hget' hwallet fun _ => hnew
        · show (t.1.rename archive wallet).get wallet = _
          rw [get_rename hget', if_pos rfl, hf]
      · simp only [hr]
        intro e' he' hroll
        cases he'
        exact absurd rfl (hroll e)
  · simp [Unchanged]

/-- **Replacing a wallet.** The old file is under the archive name before the new one is
written, and is moved back if that fails. -/
theorem replaceArchiving_keeps {stamp : Text} {sealed : Option (List UInt8)} (hc : c.envelope = sealed) :
    Keeps ans (Survives wallet c s) (replaceArchiving wallet stamp sealed)
      (Unchanged wallet (s.1.get wallet)) s := by
  unfold replaceArchiving
  refine holds_bind.mpr (holds_query.mpr fun checked _ => ?_)
  by_cases hchecked : checked = true
  · simp only [hchecked, Bool.not_true, Bool.false_eq_true, if_false]
    refine holds_bind.mpr (holds_read.mpr ?_)
    rintro _ rfl hs
    refine ⟨hs, ?_⟩
    cases hw : s.1.get wallet with
    | none =>
      simp only [Option.isSome_none, Bool.false_eq_true, if_false]
      rw [← hw]
      exact installOver_keeps hs hw hc (by simp) fun _ => hw
    | some old =>
      simp only [Option.isSome_some, if_true]
      refine holds_bind.mpr (holds_read.mpr ?_)
      rintro _ rfl hs'
      refine ⟨hs', ?_⟩
      set archive := archivePath wallet stamp (fun name => (s.1.get name).isSome) (s.1.length + 1)
        with harchive
      have hfree : s.1.get archive = none := archivePath_free
      have harch : isArchive wallet archive = true := isArchive_archivePath ..
      refine holds_bind.mpr (holds_query.mpr fun renamed _ => ?_)
      by_cases hr : renamed = true
      · simp only [hr, if_true]
        have hmoved : Survives wallet c s (s.1.rename wallet archive, s.2) :=
          hs'.move (isSafe_wallet wallet) (isSafe_of_isArchive harch) hw hfree
            (by simp [not_isArchive_wallet])
        have hne : wallet ≠ archive := by
          intro heq
          rw [← heq] at harch
          simp [not_isArchive_wallet] at harch
        refine holds_bind.mpr (Io.onFolder_keeps fun _ => ⟨hmoved, ?_⟩)
        rw [← hw]
        refine installOver_keeps hmoved ?_ hc (fun a ha => ?_) (by simp)
        · show (s.1.rename wallet archive).get wallet = none
          rw [get_rename hw, if_neg hne, if_pos rfl]
        · cases ha
          refine ⟨harch, ?_, by simp [hw], hfree⟩
          show (s.1.rename wallet archive).get archive = _
          rw [get_rename hw, if_pos rfl, hw]
      · simp only [hr]
        exact fun _ _ _ => hw
  · simp only [hchecked, Bool.not_false, if_true]
    exact fun _ _ _ => rfl

theorem exportBytes_keeps {envelope : List UInt8} {dest : Destination}
    (hc : ∀ path, dest = .elsewhere path → c.path = some path) :
    Keeps ans (Survives wallet c s₀) (exportBytes wallet envelope dest) (fun _ _ => True) s := by
  cases dest with
  | inside name => trivial
  | elsewhere path =>
    have hcopy : ∀ {f : File} {post : Unit → State → Prop} {t : State},
        post () (t.1, { t.2 with copies := t.2.copies.put path f }) →
        Keeps ans (Survives wallet c s₀) (onCopies (·.put path f)) post t := by
      rintro f post t hpost _ rfl ht
      exact ⟨ht.writeCopy (hc path rfl) f, hpost⟩
    unfold exportBytes
    refine holds_bind.mpr (holds_query.mpr fun opened _ => ?_)
    split
    · trivial
    refine holds_bind.mpr (hcopy (holds_bind.mpr (holds_query.mpr fun narrowed _ => ?_)))
    split
    · trivial
    refine holds_bind.mpr (holds_query.mpr fun cut _ => holds_bind.mpr (hcopy ?_))
    split
    · trivial
    refine holds_bind.mpr (holds_query.mpr fun synced _ => ?_)
    split
    · trivial
    exact holds_bind.mpr (hcopy trivial)

/-- One contract for the three calls. -/
theorem program_keeps (c : StorageCall) (h : Sound wallet s) :
    Keeps ans (Survives wallet c s) (c.program wallet)
      (fun r t => ∀ stamp sealed, c = .replaceArchiving stamp sealed →
        Unchanged wallet (s.1.get wallet) r t) s := by
  cases c with
  | save sealed =>
    refine holds_bind.mpr ((saveAs_keeps (h.survives _) (.inl rfl) rfl).mono ?_)
    intro r t _
    simp
  | replaceArchiving stamp sealed =>
    refine (replaceArchiving_keeps rfl).mono ?_
    intro r t hr _ _ _
    exact hr
  | exportBytes envelope dest =>
    refine holds_bind.mpr ((exportBytes_keeps ?_).mono ?_)
    · rintro path rfl
      rfl
    · intro r t _
      simp

end Calls

/-! ### Sessions -/

/-- A crash spares everything the invariant speaks about. -/
theorem Sound.crash {wallet : Text} {s : State} (h : Sound wallet s) (k k' : Text → ℕ) :
    Sound wallet (s.1.crash k, { s.2 with copies := s.2.copies.crash k' }) ∧
      ∀ n, isSafe wallet n = true → (s.1.crash k).get n = s.1.get n := by
  have hget : ∀ n, isSafe wallet n = true → (s.1.crash k).get n = s.1.get n := by
    intro n hn
    rw [get_crash]
    cases hf : s.1.get n with
    | none => rfl
    | some f => simp [h.synced n f hn hf]
  refine ⟨⟨h.distinct.crash k, fun n f hn hf => ?_, ?_⟩, hget⟩
  · exact h.synced n f hn ((hget n hn).symm.trans hf)
  · show contents (isSafe wallet) (s.1.crash k) = s.2.owed
    rw [contents_crash k, h.owed]
    exact fun n f hn hf => h.synced n f hn (get_of_mem h.distinct hf)

/-- What one call, finished or crashed, leaves as it was. -/
structure Persists (wallet : Text) (s : State) (e : StorageEvent) (t : State) : Prop where
  archives : ∀ n f, isArchive wallet n = true → s.1.get n = some f → t.1.get n = some f
  copies : ∀ p f, e.call.path ≠ some p → s.2.copies.get p = some f → f.synced = true →
    t.2.copies.get p = some f
  owed : ∀ x ∈ t.2.owed, x ∈ s.2.owed ∨ e.call.envelope = some x
  unchanged : ∀ stamp sealed er, e = .returned (.replaceArchiving stamp sealed) (.error er) →
    (∀ er', er ≠ .rollback er') → t.1.get wallet = s.1.get wallet

theorem StorageStep.persists {wallet : Text} {s t : State} {e : StorageEvent} (h : Sound wallet s)
    (hstep : StorageStep wallet s e t) : Sound wallet t ∧ Persists wallet s e t := by
  cases hstep with
  | @returned c r _ _ hexec =>
    obtain ⟨hpost, hs⟩ := exec_keeps hexec (h.survives c) (program_keeps c h)
    refine ⟨hs.sound, hs.archives, fun p f hp hf _ => ?_, hs.owed, fun stamp sealed er he => ?_⟩
    · rw [hs.copies p hp, hf]
    · cases he
      exact hpost stamp sealed rfl er rfl
  | @crashed c _ u k k' hstopped =>
    have hs : Survives wallet c s u := hstopped.keeps (h.survives c) (program_keeps c h)
    obtain ⟨hsound, hget⟩ := hs.sound.crash k k'
    refine ⟨hsound, fun n f hn hf => ?_, fun p f hp hf hsync => ?_, hs.owed, by simp⟩
    · exact (hget n (isSafe_of_isArchive hn)).trans (hs.archives n f hn hf)
    · show (u.2.copies.crash k').get p = some f
      rw [get_crash, hs.copies p hp, hf]
      simp [hsync]

theorem Sound.run {wallet : Text} {s t : State} {tr : List (State × StorageEvent)} (h : Sound wallet s)
    (hrun : Trace.Run (StorageStep wallet) s tr t) : Sound wallet t :=
  hrun.invariant (C := fun _ _ => True) (fun _ _ _ hs _ hstep => (hstep.persists hs).1) h (by simp)

/-- What is owed after a session was owed before it or given to one of its calls. -/
theorem owed_origin {wallet : Text} {s t : State} {tr : List (State × StorageEvent)} (h : Sound wallet s)
    (hrun : Trace.Run (StorageStep wallet) s tr t) {x : List UInt8} (hx : x ∈ t.2.owed) :
    x ∈ s.2.owed ∨ ∃ p ∈ tr, p.2.call.envelope = some x := by
  induction hrun with
  | nil => exact .inl hx
  | @cons s _ u e tr hstep hrun ih =>
    obtain ⟨hsound, hp⟩ := hstep.persists h
    rcases ih hsound hx with hx | ⟨p, hmem, hp'⟩
    · rcases hp.owed x hx with hx | he
      · exact .inl hx
      · exact .inr ⟨(s, e), List.mem_cons_self, he⟩
    · exact .inr ⟨p, List.mem_cons_of_mem _ hmem, hp'⟩

theorem mem_findArchives {wallet n : Text} {d : Folder Text} {f : File} (hn : isArchive wallet n = true)
    (hf : d.get n = some f) : n ∈ findArchives wallet d := by
  unfold findArchives
  rw [List.mem_mergeSort, List.mem_filter]
  exact ⟨List.mem_map.mpr ⟨_, mem_of_get hf, rfl⟩, hn⟩

theorem Sound.mem_owed {wallet : Text} {s : State} (h : Sound wallet s) {x : List UInt8} :
    x ∈ s.2.owed ↔ ∃ n f, isSafe wallet n = true ∧ s.1.get n = some f ∧ f.bytes = x := by
  rw [← h.owed, mem_contents h.distinct]

/-- **Wallet files survive replacement.** After any calls, each of which may fail at any file
operation or crash at any point: every owed envelope is whole at the wallet path or under a
name `find_archives` lists; the wallet path holds nothing but a whole envelope; and the next
call leaves every archive, and every exported file but the one it is asked to write, as it
was, and the wallet path too when it is a `replace_archiving` that fails without a failed
move back. -/
theorem wallet_files_survive {wallet : Text} {s t : State} {tr : List (State × StorageEvent)}
    (h : Sound wallet s) (hrun : Trace.Run (StorageStep wallet) s tr t) :
    (∀ x ∈ t.2.owed, ∃ n f, t.1.get n = some f ∧ f.bytes = x ∧
      (n = wallet ∨ n ∈ findArchives wallet t.1)) ∧
    (∀ f, t.1.get wallet = some f → f.synced = true ∧
      (f.bytes ∈ s.2.owed ∨ ∃ p ∈ tr, p.2.call.envelope = some f.bytes)) ∧
    ∀ e u, StorageStep wallet t e u → Persists wallet t e u := by
  have hsound := h.run hrun
  refine ⟨fun x hx => ?_, fun f hf => ?_, fun e u hstep => (hstep.persists hsound).2⟩
  · obtain ⟨n, f, hn, hf, hx⟩ := hsound.mem_owed.mp hx
    refine ⟨n, f, hf, hx, ?_⟩
    unfold isSafe at hn
    rcases Bool.or_eq_true_iff.mp hn with hn | hn
    · exact .inl (by simpa using hn)
    · exact .inr (mem_findArchives hn hf)
  · refine ⟨hsound.synced wallet f (isSafe_wallet wallet) hf, owed_origin h hrun ?_⟩
    exact hsound.mem_owed.mpr ⟨wallet, f, isSafe_wallet wallet, hf, rfl⟩

/-! ### A session -/

/-- Every file operation succeeds. -/
def succeed : ∀ q, IoAnswer q
  | .write => (none : Option ℕ)
  | .createDir => true
  | .remove => true
  | .create => true
  | .sync => true
  | .rename => true
  | .stat => true
  | .setPermissions => true

def seedFile : Text := ['s', 'e', 'e', 'd', '.', 'e', 'n', 'c']

def emptyDisk : State := ([], ⟨[], 0⟩)

def StorageCall.result (c : StorageCall) (s : State) : Except StorageError (Option Text) × State :=
  (c.program seedFile).run succeed s

theorem result_step (c : StorageCall) (s : State) :
    StorageStep seedFile s (.returned c (c.result s).1) (c.result s).2 :=
  .returned (exec_run (fun _ => trivial) _ _)

theorem emptyDisk_sound : Sound seedFile emptyDisk :=
  ⟨List.nodup_nil, fun _ _ _ h => by simp [emptyDisk, Folder.get] at h, rfl⟩

/-- Two wallets created under one stamp. -/
def firstWallet : StorageCall := .replaceArchiving ['7'] (some [1])

def secondWallet : StorageCall := .replaceArchiving ['7'] (some [2])

theorem two_wallets_survive :
    (secondWallet.result (firstWallet.result emptyDisk).2).2.1.get seedFile = some ⟨[2], true⟩ ∧
    ∃ n f, (secondWallet.result (firstWallet.result emptyDisk).2).2.1.get n = some f ∧ f.bytes = [1] ∧
      (n = seedFile ∨ n ∈ findArchives seedFile (secondWallet.result (firstWallet.result emptyDisk).2).2.1) :=
  ⟨by decide +kernel, (wallet_files_survive emptyDisk_sound
    (.cons (result_step firstWallet _) (.single (result_step secondWallet _)))).1 [1] (by decide +kernel)⟩

def firstCopy : StorageCall := .exportBytes [1] (.elsewhere ['u', 's', 'b'])

def secondCopy : StorageCall := .exportBytes [2] (.elsewhere ['u', 's', 'b'])

/-- A second copy to the same place takes the place of the first. -/
theorem exported_copy_overwritten :
    ¬ ∀ (s t u : State) (tr : List (State × StorageEvent)) (e : StorageEvent), Sound seedFile s →
      Trace.Run (StorageStep seedFile) s tr t → StorageStep seedFile t e u →
      ∀ p f, t.2.copies.get p = some f → f.synced = true → u.2.copies.get p = some f := by
  intro h
  have hkept := h _ _ _ _ _ emptyDisk_sound (.single (result_step firstCopy _))
    (result_step secondCopy _) ['u', 's', 'b'] ⟨[1], true⟩ (by decide +kernel) rfl
  revert hkept
  decide +kernel

end Storage

end Alphanumeric
