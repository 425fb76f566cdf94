/-
# The wallet file keeps every key

Every save seals the whole list of keys again, from a copy taken earlier. While an address is
being saved nothing else may change the keys, and so the file and the open wallet never
drift apart. This rests on setup: a wallet that is installed must be what the file still
holds, and a file is put in place only while no wallet is open. An unlock that was submitted
twice hands over the older reading of the file, and the next save then seals that.

Key definitions: `DiskStep`, `FileOk`, `KeepsKeys`, `Removes`.
Key theorems: `step_keys`, `wallet_file_keeps_every_key`.
-/
import Alphanumeric.WalletRows

namespace Alphanumeric

namespace Gui

variable {E : AppEnv}

/-! ### What is on disk -/

/-- The wallet file and its archives. -/
def WalletDisk.all (d : WalletDisk) : List Sealed := d.file.toList ++ d.archives

/-- The seed is sealed for this master, in the file or in an archive. -/
def WalletDisk.HasSeed (d : WalletDisk) (master : Master) (seed : Text) : Prop :=
  ∃ f ∈ d.all, f.master = master ∧ seed ∈ f.imported

/-- What a step may do to the disk; `gone` is what it may let go. -/
inductive DiskStep (gone : Text → Prop) (d d' : WalletDisk) : Prop
  | same (h : d' = d)
  | resave (f f' : Sealed) (hf : d.file = some f) (hd : d' = { d with file := some f' })
      (hm : f'.master = f.master) (hn : f.nextIndex ≤ f'.nextIndex)
      (hk : ∀ seed ∈ f.imported, seed ∈ f'.imported ∨ gone seed)
  | replace (f' : Sealed) (hd : d' = ⟨some f', d.archives ++ d.file.toList⟩)
      (hn : ∀ g ∈ d.all, g.master = f'.master → g.nextIndex ≤ f'.nextIndex)
  | aside (hd : d' = ⟨none, d.archives ++ d.file.toList⟩)

theorem DiskStep.hasSeed {gone : Text → Prop} {d d' : WalletDisk} (h : DiskStep gone d d') {master : Master}
    {seed : Text} (hs : d.HasSeed master seed) : d'.HasSeed master seed ∨ gone seed := by
  obtain ⟨f, hf, hm, hseed⟩ := hs
  cases h with
  | same h => exact .inl (h ▸ ⟨f, hf, hm, hseed⟩)
  | resave g g' hg hd hm' _ hk =>
    unfold WalletDisk.all at hf
    rw [hg, Option.toList_some, List.singleton_append, List.mem_cons] at hf
    rcases hf with rfl | hf
    · rcases hk seed hseed with hkept | hgone
      · exact .inl ⟨g', by simp [hd, WalletDisk.all], hm'.trans hm, hkept⟩
      · exact .inr hgone
    · exact .inl ⟨f, by simp [hd, WalletDisk.all, hf], hm, hseed⟩
  | replace g' hd _ =>
    refine .inl ⟨f, ?_, hm, hseed⟩
    rw [WalletDisk.all, List.mem_append] at hf
    simp only [hd, WalletDisk.all, List.mem_append]
    exact .inr hf.symm
  | aside hd =>
    refine .inl ⟨f, ?_, hm, hseed⟩
    rw [WalletDisk.all, List.mem_append] at hf
    simp only [hd, WalletDisk.all, List.mem_append]
    exact .inr hf.symm

/-- The disk knows of at least as many addresses as `f`, and so does the file if it is of the
same master. -/
structure WalletDisk.Above (d : WalletDisk) (f : Sealed) : Prop where
  known : ∃ g ∈ d.all, g.master = f.master ∧ f.nextIndex ≤ g.nextIndex
  file : ∀ g ∈ d.file, g.master = f.master → f.nextIndex ≤ g.nextIndex

theorem WalletDisk.above_file {d : WalletDisk} {f : Sealed} (h : d.file = some f) : d.Above f where
  known := ⟨f, by simp [WalletDisk.all, h], rfl, le_rfl⟩
  file := by
    intro g hg _
    rw [h, Option.mem_some_iff] at hg
    rw [hg]

theorem DiskStep.above {gone : Text → Prop} {d d' : WalletDisk} (h : DiskStep gone d d') {f : Sealed}
    (ha : d.Above f) : d'.Above f := by
  obtain ⟨g, hg, hgm, hgn⟩ := ha.known
  cases h with
  | same h => exact h ▸ ha
  | resave h₀ h₁ hf hd hm hn _ =>
    subst hd
    have hfile : h₀.master = f.master → f.nextIndex ≤ h₁.nextIndex :=
      fun he => (ha.file h₀ hf he).trans hn
    constructor
    · unfold WalletDisk.all at hg
      rw [hf, Option.toList_some, List.singleton_append, List.mem_cons] at hg
      rcases hg with rfl | hg
      · exact ⟨h₁, by simp [WalletDisk.all], hm.trans hgm, hfile hgm⟩
      · exact ⟨g, by simp [WalletDisk.all, hg], hgm, hgn⟩
    · intro k hk hkm
      rw [Option.mem_some_iff] at hk
      subst hk
      exact hfile (hm ▸ hkm)
  | replace f' hd hn =>
    subst hd
    refine ⟨⟨g, ?_, hgm, hgn⟩, ?_⟩
    · rw [WalletDisk.all, List.mem_append] at hg
      simp only [WalletDisk.all, List.mem_append]
      exact .inr hg.symm
    · intro k hk hkm
      rw [Option.mem_some_iff] at hk
      subst hk
      exact hgn.trans (hn g hg (hgm.trans hkm.symm))
  | aside hd =>
    subst hd
    refine ⟨⟨g, ?_, hgm, hgn⟩, by simp⟩
    rw [WalletDisk.all, List.mem_append] at hg
    simp only [WalletDisk.all, List.mem_append]
    exact .inr hg.symm

/-! ### What a step may do -/

def Job.isSave : Job → Bool
  | .save _ => true
  | .saved _ => true
  | _ => false

/-- The saves in flight, until the wallet has heard of them. -/
def saveJobs (s : App) : List Job := s.jobs.filter Job.isSave

/-- The user confirmed the removal of this key, and it was written. -/
def Removes (s : App) (e : AppEvent) (seed : Text) : Prop :=
  e = .message (.removeKeyConfirm .done) ∧ ∃ w r, s.wallet = some w ∧ w.removingKey = some r ∧
    w.imported[r.slot]? = some seed ∧ trim r.typed = r.address

/-- The file that a setup job writes, and how that goes. -/
def writes (s : App) : AppEvent → Option (Sealed × DiskOutcome)
  | .answer i (.scan found o) =>
    match s.jobs[i]? with
    | some (.create master restored passphrase _) =>
      (if restored then found else some 1).map fun next => (⟨master, max next 1, [], passphrase⟩, o)
    | _ => none
  | .answer i (.disk o) =>
    match s.jobs[i]? with
    | some (.useFile f _) => some (f, o)
    | _ => none
  | _ => none

variable (E) in
/-- Setup installs what the file still holds, while no save is in flight, and puts a file in
place only while no wallet is open and never one that knows of fewer addresses of its master. -/
structure KeepsKeys (s : App) (e : AppEvent) : Prop where
  install : ∀ r ∈ installs E s e, saveJobs s = [] ∧ ∃ f ∈ s.disk.file,
    f.master = r.master ∧ f.nextIndex = max r.nextIndex 1 ∧ f.imported = r.imported
  write : ∀ p ∈ writes s e, p.2 ≠ .failed → s.wallet = none
  index : ∀ p ∈ writes s e, p.2 = .done →
    ∀ g ∈ s.disk.all, g.master = p.1.master → g.nextIndex ≤ p.1.nextIndex

instance (s : App) (e : AppEvent) : Decidable (KeepsKeys E s e) :=
  decidable_of_iff
    ((∀ r ∈ installs E s e, saveJobs s = [] ∧ ∃ f ∈ s.disk.file,
        f.master = r.master ∧ f.nextIndex = max r.nextIndex 1 ∧ f.imported = r.imported) ∧
      (∀ p ∈ writes s e, p.2 ≠ .failed → s.wallet = none) ∧
      ∀ p ∈ writes s e, p.2 = .done → ∀ g ∈ s.disk.all, g.master = p.1.master → g.nextIndex ≤ p.1.nextIndex)
    ⟨fun h => ⟨h.1, h.2.1, h.2.2⟩, fun h => ⟨h.install, h.write, h.index⟩⟩

/-! ### The invariant -/

/-- The keys of an open wallet, and whether an address is being added. -/
structure Keys where
  master : Master
  nextIndex : ℕ
  imported : List Text
  adding : Bool

def keysOf (w : WalletState) : Keys := ⟨w.master, w.nextIndex, w.imported, w.addingAddress⟩

def Keys.In (k : Keys) (file : Option Sealed) : Prop :=
  ∃ f, file = some f ∧ f.master = k.master ∧ f.nextIndex = k.nextIndex ∧ f.imported = k.imported

/-- The file holds what the wallet holds, but for the address that is being added. -/
inductive FileOk : Option Keys → Option Sealed → List Job → Prop
  | closed {file : Option Sealed} : FileOk none file []
  | idle {k : Keys} {file : Option Sealed} (h : k.In file) : FileOk (some k) file []
  | saving {k : Keys} {file : Option Sealed} {f : Sealed} (ha : k.adding = true) (h : k.In file)
      (hm : f.master = k.master) (hn : k.nextIndex ≤ f.nextIndex) (hi : f.imported = k.imported) :
      FileOk (some k) file [.save f]
  | failed {k : Keys} {file : Option Sealed} (ha : k.adding = true) (h : k.In file) :
      FileOk (some k) file [.saved none]
  | saved {k : Keys} {file : Option Sealed} {next : ℕ} (ha : k.adding = true)
      (h : Keys.In { k with nextIndex := next } file) : FileOk (some k) file [.saved (some next)]

def KeysInv (s : App) : Prop := FileOk (s.wallet.map keysOf) s.disk.file (saveJobs s)

theorem FileOk.length_le {k : Option Keys} {file : Option Sealed} {jobs : List Job} (h : FileOk k file jobs) :
    jobs.length ≤ 1 := by
  cases h <;> simp

/-- Nothing is in flight while no address is being added. -/
theorem FileOk.of_idle {k : Keys} {file : Option Sealed} {jobs : List Job} (h : FileOk (some k) file jobs)
    (ha : k.adding = false) : jobs = [] ∧ k.In file := by
  cases h with
  | idle h => exact ⟨rfl, h⟩
  | saving ha' => simp [ha] at ha'
  | failed ha' => simp [ha] at ha'
  | saved ha' => simp [ha] at ha'

theorem KeysInv.of_wallet {s : App} {w : WalletState} (h : KeysInv s) (hw : s.wallet = some w) :
    FileOk (some (keysOf w)) s.disk.file (saveJobs s) := by
  unfold KeysInv at h
  rwa [hw] at h

theorem KeysInv.of_eq {t : App} {k : Option Keys} {file : Option Sealed} {jobs : List Job}
    (h : FileOk k file jobs) (hw : t.wallet.map keysOf = k) (hf : t.disk.file = file)
    (hj : saveJobs t = jobs) : KeysInv t := by
  subst hw hf hj
  exact h

theorem KeysInv.of_open {t : App} {w : WalletState} {f : Sealed} (hw : t.wallet = some w)
    (hf : t.disk.file = some f) (hj : saveJobs t = []) (hm : f.master = w.master)
    (hn : f.nextIndex = w.nextIndex) (hi : f.imported = w.imported) : KeysInv t :=
  .of_eq (.idle ⟨f, rfl, hm, hn, hi⟩) (congrArg (Option.map keysOf) hw) hf hj

theorem KeysInv.of_closed {t : App} (hw : t.wallet = none) (hj : saveJobs t = []) : KeysInv t :=
  .of_eq .closed (congrArg (Option.map keysOf) hw) rfl hj

structure SameKeys (s t : App) : Prop where
  keys : t.wallet.map keysOf = s.wallet.map keysOf
  jobs : saveJobs t = saveJobs s
  disk : t.disk = s.disk

namespace SameKeys

theorem refl (s : App) : SameKeys s s := ⟨rfl, rfl, rfl⟩

theorem trans {s t u : App} (h : SameKeys s t) (h' : SameKeys t u) : SameKeys s u :=
  ⟨h'.keys.trans h.keys, h'.jobs.trans h.jobs, h'.disk.trans h.disk⟩

theorem inv {s t : App} (h : SameKeys s t) (hs : KeysInv s) : KeysInv t := by
  unfold KeysInv
  rw [h.keys, h.jobs, h.disk]
  exact hs

theorem of_quiet {s t : App} (h : Quiet E s t) : SameKeys s t where
  keys := h.map_wallet fun _ => rfl
  jobs := by
    refine h.filter_jobs fun j hj => ?_
    cases j <;> first | rfl | simp [Job.isSave] at hj
  disk := h.disk

theorem onWallet {s : App} {f : WalletState → WalletState × List Job}
    (h : ∀ w, keysOf (f w).1 = keysOf w ∧ (f w).2.filter Job.isSave = []) : SameKeys s (s.onWallet f) := by
  unfold App.onWallet
  cases hw : s.wallet with
  | none => exact .refl s
  | some w =>
    obtain ⟨hk, hj⟩ := h w
    refine ⟨?_, ?_, rfl⟩
    · simp [hw, hk]
    · simp [saveJobs, hj]

theorem edit {s : App} {f : WalletState → WalletState} (h : ∀ w, keysOf (f w) = keysOf w) :
    SameKeys s (s.edit f) := .onWallet fun w => ⟨h w, rfl⟩

theorem start {s : App} {j : Job} (h : j.isSave = false) : SameKeys s (s.start j) :=
  ⟨rfl, by simp [saveJobs, App.start, h], rfl⟩

theorem take {s : App} {i : ℕ} {j : Job} (hj : s.jobs[i]? = some j) (h : j.isSave = false) :
    SameKeys s (s.take i) := ⟨rfl, filter_eraseIdx_other h hj, rfl⟩

theorem refreshAll (s : App) : SameKeys s s.refreshAll := by
  refine .onWallet fun w => ?_
  unfold WalletState.refreshAll
  split <;> exact ⟨rfl, rfl⟩

theorem retarget (s : App) (url : Text) : SameKeys s (s.retarget E url) := by
  refine ⟨?_, rfl, rfl⟩
  unfold App.retarget
  cases s.wallet with
  | none => rfl
  | some w => by_cases h : E.validUrl url = true <;> simp [h, keysOf]

theorem startOwned (s : App) (owned : Option Text) : SameKeys s (s.startOwned E owned) := by
  cases owned with
  | none => exact .refl s
  | some url => exact .retarget s url

end SameKeys

/-! ### Messages -/

/-- The invariant after a step, and what the step did to the disk. -/
def KeyStep (s : App) (e : AppEvent) (t : App) : Prop :=
  KeysInv t ∧ DiskStep (Removes s e) s.disk t.disk

theorem SameKeys.step {s t : App} {e : AppEvent} (h : SameKeys s t) (hs : KeysInv s) : KeyStep s e t :=
  ⟨h.inv hs, .same h.disk⟩

/-- The messages that change the keys or close the wallet. -/
def Message.isKey : Message → Bool
  | .addAddress => true
  | .importKeyAdd _ => true
  | .removeKeyConfirm _ => true
  | .importContinue => true
  | _ => false

theorem update_sameKeys (s : App) {m : Message} (hm : m.isKey = false) : SameKeys s (update E s m) := by
  by_cases hf : m.isForm = true
  · exact .of_quiet (update_quiet s hf)
  cases m with
  | «show» screen =>
    have hw : screen = .wallet := by simpa [Message.isForm] using hf
    subst hw
    simp only [update]
    unfold App.showScreen
    split
    · exact .refl s
    · have hclose : SameKeys s (s.edit WalletState.closePanels) := .edit fun w => rfl
      exact hclose.trans (.refreshAll _)
  | nodeUrlChanged url => exact .retarget s url
  | retryNode url => exact (SameKeys.retarget s url).trans (.of_quiet (E := E) (.showScreen _ (by decide)))
  | startCreate master owned => exact (SameKeys.startOwned s owned).trans ⟨rfl, rfl, rfl⟩
  | startRestore owned => exact (SameKeys.startOwned s owned).trans ⟨rfl, rfl, rfl⟩
  | startImportFile owned => exact (SameKeys.startOwned s owned).trans ⟨rfl, rfl, rfl⟩
  | pollTick =>
    refine .onWallet fun w => ?_
    unfold WalletState.pollTick
    split
    · exact ⟨rfl, rfl⟩
    · split <;> exact ⟨rfl, rfl⟩
  | refreshAll => exact .refreshAll s
  | setActiveAddress position =>
    refine .edit fun w => ?_
    unfold WalletState.setActiveAddress
    split <;> rfl
  | sendReview =>
    refine .edit fun w => ?_
    unfold WalletState.sendReview
    split
    · split
      · rfl
      · split <;> rfl
    · rfl
  | sendBackToCompose =>
    refine .edit fun w => ?_
    unfold WalletState.sendBackToCompose
    split <;> rfl
  | sendConfirm =>
    refine .onWallet fun w => ?_
    unfold WalletState.sendConfirm
    split
    · exact ⟨rfl, rfl⟩
    · split <;> exact ⟨rfl, rfl⟩
  | sendRetry =>
    refine .onWallet fun w => ?_
    unfold WalletState.sendRetry
    split
    · exact ⟨rfl, rfl⟩
    · refine ⟨rfl, ?_⟩
      simp only [WalletState.submitOutstanding]
      split <;> rfl
  | sendClear =>
    refine .edit fun w => ?_
    unfold WalletState.sendClear
    split <;> rfl
  | _ => simp [Message.isKey, Message.isForm] at hm hf

theorem le_saturatingSucc (n : ℕ) : n ≤ WalletState.saturatingSucc n := by
  unfold WalletState.saturatingSucc
  split <;> omega

theorem step_addAddress {s : App} (hs : KeysInv s) :
    KeyStep s (.message .addAddress) (update E s .addAddress) := by
  have hu : update E s .addAddress = s.onWallet WalletState.addAddress := rfl
  rw [hu]
  unfold App.onWallet
  cases hw : s.wallet with
  | none => exact (SameKeys.refl s).step hs
  | some w =>
    refine ⟨?_, .same rfl⟩
    have hok := hs.of_wallet hw
    by_cases ha : w.addingAddress = true
    · have hf : w.addAddress = (w, []) := by simp [WalletState.addAddress, ha]
      simp only [KeysInv, saveJobs, hf, List.append_nil]
      exact hok
    · obtain ⟨hj, hin⟩ := hok.of_idle (by simpa [keysOf] using ha)
      have hf : w.addAddress = ({ w with addingAddress := true },
          [.save ⟨w.master, WalletState.saturatingSucc w.nextIndex, w.imported, w.passphrase⟩]) := by
        simp [WalletState.addAddress, ha]
      have hjobs : ∀ j : Job, j.isSave = true → (s.jobs ++ [j]).filter Job.isSave = [j] := by
        intro j hj'
        rw [List.filter_append, show s.jobs.filter Job.isSave = [] from hj]
        simp [hj']
      simp only [KeysInv, saveJobs, hf]
      rw [hjobs _ rfl]
      exact .saving rfl hin rfl (le_saturatingSucc _) rfl

theorem adding_of_unblocked {w : WalletState} (h : w.keyChangeBlocked = false) : (keysOf w).adding = false := by
  unfold WalletState.keyChangeBlocked at h
  rw [Bool.or_eq_false_iff] at h
  exact h.2

theorem step_importKeyAdd {s : App} (saved : DiskOutcome) (hs : KeysInv s) :
    KeyStep s (.message (.importKeyAdd saved)) (update E s (.importKeyAdd saved)) := by
  have hu : update E s (.importKeyAdd saved) = s.importKeyAdd saved := rfl
  rw [hu]
  unfold App.importKeyAdd
  cases hw : s.wallet with
  | none => exact (SameKeys.refl s).step hs
  | some w =>
    simp only
    split
    · exact SameKeys.step ⟨by simp [hw, keysOf], rfl, rfl⟩ hs
    · rename_i seed address hc hb
      split
      · obtain ⟨hj, f, hf, hm, hn, hi⟩ := (hs.of_wallet hw).of_idle (adding_of_unblocked hb)
        refine ⟨(SameKeys.refreshAll _).inv ?_, ?_⟩
        · exact .of_open rfl rfl hj rfl rfl rfl
        · rw [(SameKeys.refreshAll _).disk]
          refine .resave f (w.addKey seed address).sealed hf rfl hm.symm hn.le fun seed' hs' => .inl ?_
          rw [hi] at hs'
          exact List.mem_append_left _ hs'
      · exact SameKeys.step ⟨by simp [hw, keysOf], rfl, rfl⟩ hs
    · exact (SameKeys.refl s).step hs

theorem mem_eraseIdx_of_ne {α : Type} {l : List α} {i : ℕ} {a b : α} (hb : l[i]? = some b) (ha : a ∈ l)
    (hne : a ≠ b) : a ∈ l.eraseIdx i := by
  obtain ⟨n, hn⟩ := List.mem_iff_getElem?.mp ha
  refine List.mem_eraseIdx_iff_getElem?.mpr ⟨n, ?_, hn⟩
  rintro rfl
  rw [hn, Option.some.injEq] at hb
  exact hne hb

theorem step_removeKeyConfirm {s : App} (saved : DiskOutcome) (hs : KeysInv s) :
    KeyStep s (.message (.removeKeyConfirm saved)) (update E s (.removeKeyConfirm saved)) := by
  have hu : update E s (.removeKeyConfirm saved) = s.removeKeyConfirm saved := rfl
  rw [hu]
  unfold App.removeKeyConfirm
  cases hw : s.wallet with
  | none => exact (SameKeys.refl s).step hs
  | some w =>
    simp only
    split
    · rename_i r hr hb
      split
      · exact (SameKeys.refl s).step hs
      · rename_i htyped
        split
        · exact (SameKeys.refl s).step hs
        · rename_i seed hseed
          split
          · obtain ⟨hj, f, hf, hm, hn, hi⟩ := (hs.of_wallet hw).of_idle (adding_of_unblocked hb)
            constructor
            · exact .of_open rfl rfl hj rfl rfl rfl
            · refine .resave f (w.dropKey r.slot).sealed hf rfl hm.symm hn.le fun seed' hs' => ?_
              rw [hi] at hs'
              by_cases hsame : seed' = seed
              · exact .inr ⟨rfl, w, r, hw, hr, hsame ▸ hseed, by simpa using htyped⟩
              · exact .inl (mem_eraseIdx_of_ne hseed hs' hsame)
          · obtain ⟨hlt, hget⟩ := List.getElem?_eq_some_iff.mp hseed
            have himp : (w.imported.eraseIdx r.slot).insertIdx r.slot seed = w.imported := by
              rw [← hget]
              exact List.insertIdx_eraseIdx_getElem hlt
            refine SameKeys.step ⟨?_, rfl, rfl⟩ hs
            simp [hw, keysOf, WalletState.restoreKey, WalletState.dropKey, himp]
    · exact (SameKeys.refl s).step hs

theorem step_closeWallet {s : App} (hs : KeysInv s) :
    KeyStep s (.message .importContinue) (update E s .importContinue) := by
  have hu : update E s .importContinue = s.importContinue := rfl
  rw [hu]
  unfold App.importContinue
  cases hw : s.wallet with
  | none => exact (SameKeys.refl s).step hs
  | some w =>
    simp only
    split
    · exact (SameKeys.refl s).step hs
    · rename_i hb
      refine ⟨?_, .same rfl⟩
      have ha : (keysOf w).adding = false := by
        simp only [WalletState.importBlocked, Bool.or_eq_true, not_or, Bool.not_eq_true] at hb
        exact hb.1.2
      obtain ⟨hj, -⟩ := (hs.of_wallet hw).of_idle ha
      exact .of_closed rfl hj

/-! ### Answers -/

theorem sendSpendableChecked_keys (w : WalletState) (node : Text) (p : Prepared) (r : AddressResult)
    (now : Option ℕ) (key : Text) :
    keysOf (w.sendSpendableChecked E node p r now key).1 = keysOf w ∧
      (w.sendSpendableChecked E node p r now key).2.filter Job.isSave = [] := by
  have hnote : ∀ q, keysOf (w.noteCeiling node p q r) = keysOf w := by
    intro q
    unfold WalletState.noteCeiling
    split <;> rfl
  unfold WalletState.sendSpendableChecked
  split
  · split
    · exact ⟨rfl, rfl⟩
    · split
      · exact ⟨rfl, rfl⟩
      · simp only
        split
        · split
          · exact ⟨hnote _, rfl⟩
          · exact ⟨hnote _, rfl⟩
        · exact ⟨hnote _, rfl⟩
  · exact ⟨rfl, rfl⟩

theorem saveJobs_take {s : App} {i : ℕ} {j k : Job} (hj : s.jobs[i]? = some j) (hk : j.isSave = true)
    (hs : saveJobs s = [k]) : j = k ∧ saveJobs (s.take i) = [] := filter_eraseIdx_single hk hj hs

theorem mem_saveJobs {s : App} {i : ℕ} {j : Job} (hj : s.jobs[i]? = some j) (hk : j.isSave = true) :
    j ∈ saveJobs s := List.mem_filter.mpr ⟨List.mem_of_getElem? hj, hk⟩

/-- The save was made, or was not: the wallet has yet to hear of it. -/
theorem step_save {s : App} {i : ℕ} {f : Sealed} {o : DiskOutcome} (hs : KeysInv s)
    (hj : s.jobs[i]? = some (.save f)) : KeyStep s (.answer i (.disk o)) (deliver E s i (.disk o)) := by
  have hmem := mem_saveJobs hj rfl
  rw [deliver_some hj]
  simp only [resume]
  cases hw : s.wallet with
  | none =>
    unfold KeysInv at hs
    rw [hw] at hs
    generalize hl : saveJobs s = l at hs hmem
    cases hs
    simp at hmem
  | some w =>
    have hok := hs.of_wallet hw
    generalize hl : saveJobs s = l at hok hmem
    cases hok with
    | idle => simp at hmem
    | failed => simp at hmem
    | saved => simp at hmem
    | saving ha hin hm hn hi =>
      obtain ⟨he, hnil⟩ := saveJobs_take hj rfl hl
      cases he
      have hjobs : ∀ j : Job, j.isSave = true → saveJobs ((s.take i).start j) = [j] := by
        intro j hsave
        rw [saveJobs, App.start, List.filter_append, show (s.take i).jobs.filter Job.isSave = [] from hnil]
        simp [hsave]
      obtain ⟨f₀, hf₀, hm₀, hn₀, hi₀⟩ := hin
      by_cases ho : o = .done
      · subst ho
        constructor
        · have hok : FileOk (some (keysOf w)) (some f) [.saved (some f.nextIndex)] :=
            .saved ha ⟨f, rfl, hm, rfl, hi⟩
          exact .of_eq hok (congrArg (Option.map keysOf) hw) rfl (hjobs (.saved (some f.nextIndex)) rfl)
        · refine .resave f₀ f hf₀ rfl (hm.trans hm₀.symm) (hn₀ ▸ hn) fun seed hseed => .inl ?_
          rw [hi₀] at hseed
          exact hi ▸ hseed
      · have hd : s.disk.save f o = s.disk := by
          cases o with
          | done => exact absurd rfl ho
          | _ => rfl
        constructor
        · rw [if_neg ho]
          refine .of_eq (.failed ha ⟨f₀, rfl, hm₀, hn₀, hi₀⟩) ?_ ?_ (hjobs (.saved none) rfl)
          · exact congrArg (Option.map keysOf) hw
          · exact (congrArg WalletDisk.file hd).trans hf₀
        · exact .same hd

theorem step_saved {s : App} {i : ℕ} {next : Option ℕ} (hs : KeysInv s)
    (hj : s.jobs[i]? = some (.saved next)) : KeyStep s (.answer i .done) (deliver E s i .done) := by
  have hmem := mem_saveJobs hj rfl
  rw [deliver_some hj]
  simp only [resume]
  suffices h : KeyStep s (.answer i .done) ((s.take i).edit (WalletState.addressStoreSaved E next)) by
    split
    · refine ⟨(SameKeys.refreshAll _).inv h.1, ?_⟩
      rw [(SameKeys.refreshAll _).disk]
      exact h.2
    · exact h
  cases hw : s.wallet with
  | none =>
    unfold KeysInv at hs
    rw [hw] at hs
    generalize hl : saveJobs s = l at hs hmem
    cases hs
    simp at hmem
  | some w =>
    have hok := hs.of_wallet hw
    have hedit : (s.take i).edit (WalletState.addressStoreSaved E next) =
        { s.take i with wallet := some (w.addressStoreSaved E next) } := by
      simp [App.edit, App.onWallet, App.take, hw]
    rw [hedit]
    refine ⟨?_, .same rfl⟩
    generalize hl : saveJobs s = l at hok hmem
    cases hok with
    | idle => simp at hmem
    | saving => simp at hmem
    | failed ha hin =>
      obtain ⟨he, hnil⟩ := saveJobs_take hj rfl hl
      cases he
      obtain ⟨f, hf, hm, hn, hi⟩ := hin
      exact .of_open rfl hf hnil hm hn hi
    | saved ha hin =>
      obtain ⟨he, hnil⟩ := saveJobs_take hj rfl hl
      cases he
      obtain ⟨f, hf, hm, hn, hi⟩ := hin
      exact .of_open rfl hf hnil hm hn hi

/-- A file is put in place while no wallet is open. -/
theorem step_write {s t : App} {e : AppEvent} {f : Sealed} {o : DiskOutcome} (hs : KeysInv s)
    (hw : o ≠ .failed → s.wallet = none)
    (hn : o = .done → ∀ g ∈ s.disk.all, g.master = f.master → g.nextIndex ≤ f.nextIndex)
    (htw : t.wallet = s.wallet) (htj : saveJobs t = saveJobs s) (htd : t.disk = s.disk.replace f o) :
    KeyStep s e t := by
  by_cases ho : o = .failed
  · subst ho
    exact SameKeys.step ⟨by rw [htw], htj, htd⟩ hs
  · have hnone := hw ho
    have hj : saveJobs s = [] := by
      unfold KeysInv at hs
      rw [hnone] at hs
      generalize hl : saveJobs s = l at hs
      cases hs
      rfl
    refine ⟨.of_closed (htw.trans hnone) (htj.trans hj), ?_⟩
    cases o with
    | done => exact .replace f htd (hn rfl)
    | failed => exact absurd rfl ho
    | rollbackFailed => exact .aside htd

theorem step_installed {s : App} {i : ℕ} {r : Ready} (hj : s.jobs[i]? = some (.ready (some r)))
    (hu : E.validUrl r.nodeUrl = true) (hc : KeepsKeys E s (.answer i .done)) :
    KeyStep s (.answer i .done) (deliver E s i .done) := by
  obtain ⟨hsaves, f, hf, hm, hn, hi⟩ := hc.install r (installs_answer hj hu)
  rw [deliver_some hj]
  simp only [resume, App.setupReady, hu, Bool.not_true, Bool.false_eq_true, if_false]
  refine ⟨(SameKeys.refreshAll _).inv ?_, ?_⟩
  · exact .of_open rfl hf ((SameKeys.take hj rfl).jobs.trans hsaves) hm hn hi
  · rw [(SameKeys.refreshAll _).disk]
    exact .same rfl

theorem step_otherAnswer {s : App} {i : ℕ} {a : Answer} {j : Job} (hs : KeysInv s)
    (hj : s.jobs[i]? = some j) (hsave : j.isSave = false) (ha : j.answeredBy a = true)
    (hc : KeepsKeys E s (.answer i a)) : KeyStep s (.answer i a) (deliver E s i a) := by
  have htake := SameKeys.take hj hsave
  cases j with
  | poll epoch node asked =>
    cases a with
    | address r =>
      rw [deliver_some hj]
      refine (htake.trans (.edit fun w => ?_)).step hs
      unfold WalletState.pollTickFetched
      simp only
      split <;> rfl
    | _ => simp [Job.answeredBy] at ha
  | refresh epoch node asked =>
    cases a with
    | addresses rs =>
      rw [deliver_some hj]
      refine (htake.trans (.edit fun w => ?_)).step hs
      unfold WalletState.refreshAllFetched
      simp only
      split <;> rfl
    | _ => simp [Job.answeredBy] at ha
  | check node p =>
    cases a with
    | ceiling r now key =>
      rw [deliver_some hj]
      refine (htake.trans (.onWallet fun w => ?_)).step hs
      exact sendSpendableChecked_keys w node p r now key
    | _ => simp [Job.answeredBy] at ha
  | post node b =>
    cases a with
    | response r =>
      rw [deliver_some hj]
      have hedit : SameKeys (s.take i)
          ((s.take i).edit (WalletState.sendSubmitted (verdict E.parse (submitAnswer E.parse r)))) :=
        .edit fun _ => rfl
      exact (htake.trans hedit).step hs
    | _ => simp [Job.answeredBy] at ha
  | create master restored passphrase nodeUrl =>
    cases a with
    | scan found o =>
      rw [deliver_some hj]
      simp only [resume]
      cases hnext : (if restored = true then found else some 1) with
      | none => exact (htake.trans (.start rfl)).step hs
      | some next =>
        have hwr : writes s (.answer i (.scan found o)) = some (⟨master, max next 1, [], passphrase⟩, o) := by
          simp [writes, hj, hnext]
        refine step_write hs (hc.write _ hwr) (hc.index _ hwr) rfl ?_ rfl
        simp only [saveJobs, App.start, App.replaceFile, List.filter_append]
        exact (List.append_nil _).trans htake.jobs
    | _ => simp [Job.answeredBy] at ha
  | useFile f nodeUrl =>
    cases a with
    | disk o =>
      rw [deliver_some hj]
      have hwr : writes s (.answer i (.disk o)) = some (f, o) := by simp [writes, hj]
      refine step_write hs (hc.write _ hwr) (hc.index _ hwr) rfl ?_ rfl
      simp only [resume, saveJobs, App.start, App.replaceFile, List.filter_append]
      exact (List.append_nil _).trans htake.jobs
    | _ => simp [Job.answeredBy] at ha
  | ready r =>
    cases a with
    | done =>
      by_cases hr : ∃ r', r = some r' ∧ E.validUrl r'.nodeUrl = true
      · obtain ⟨r', rfl, hu⟩ := hr
        exact step_installed hj hu hc
      · rw [deliver_some hj]
        refine (htake.trans (.of_quiet (resume_quiet _ rfl fun r' he _ => ?_))).step hs
        by_contra hu
        exact hr ⟨r', Job.ready.inj he, by simpa using hu⟩
    | _ => simp [Job.answeredBy] at ha
  | save f => simp [Job.isSave] at hsave
  | saved next => simp [Job.isSave] at hsave
  | _ =>
    rw [deliver_some hj]
    exact (htake.trans (.of_quiet (resume_quiet _ rfl (by simp)))).step hs

/-! ### Steps and runs -/

theorem step_keys {s t : App} {e : AppEvent} (hs : KeysInv s) (hc : KeepsKeys E s e) (h : AppStep E s e t) :
    KeyStep s e t := by
  unfold AppStep at h
  subst h
  cases e with
  | message m =>
    by_cases hm : m.isKey = true
    · cases m with
      | addAddress => exact step_addAddress (E := E) hs
      | importKeyAdd saved => exact step_importKeyAdd (E := E) saved hs
      | removeKeyConfirm saved => exact step_removeKeyConfirm (E := E) saved hs
      | importContinue => exact step_closeWallet (E := E) hs
      | _ => simp [Message.isKey] at hm
    · exact (update_sameKeys s (by simpa using hm)).step hs
  | answer i a =>
    show KeyStep s (.answer i a) (deliver E s i a)
    cases hj : s.jobs[i]? with
    | none =>
      rw [deliver_none hj]
      exact (SameKeys.refl s).step hs
    | some j =>
      by_cases ha : j.answeredBy a = true
      · by_cases hsave : j.isSave = true
        · cases j with
          | save f =>
            cases a with
            | disk o => exact step_save hs hj
            | _ => simp [Job.answeredBy] at ha
          | saved next =>
            cases a with
            | done => exact step_saved hs hj
            | _ => simp [Job.answeredBy] at ha
          | _ => simp [Job.isSave] at hsave
        · exact step_otherAnswer hs hj (by simpa using hsave) ha hc
      · rw [deliver_some hj, resume_waits _ (by simpa using ha)]
        exact SameKeys.step ⟨rfl, filter_take_start hj hs.length_le, rfl⟩ hs

theorem keysInv_started {s : App} (h : s.Started) : KeysInv s :=
  .of_closed h.1 (by simp [saveJobs, h.2])

/-- A seed on disk is there after the run, unless a step of the run removed it. -/
theorem run_hasSeed {s t : App} {tr : List (App × AppEvent)} (run : Trace.Run (AppStep E) s tr t)
    (hs : KeysInv s) (hC : ∀ p ∈ tr, KeepsKeys E p.1 p.2) {master : Master} {seed : Text}
    (h : s.disk.HasSeed master seed) :
    t.disk.HasSeed master seed ∨ ∃ p ∈ tr, Removes p.1 p.2 seed := by
  induction run with
  | nil s => exact .inl h
  | cons hstep _ ih =>
    rw [List.forall_mem_cons] at hC
    obtain ⟨hinv, hdisk⟩ := step_keys hs hC.1 hstep
    rcases hdisk.hasSeed h with hkept | hgone
    · rcases ih hinv hC.2 hkept with hend | ⟨p, hp, hrem⟩
      · exact .inl hend
      · exact .inr ⟨p, List.mem_cons_of_mem _ hp, hrem⟩
    · exact .inr ⟨_, List.mem_cons_self, hgone⟩

/-- The file and the open wallet agree while no save is in flight. -/
theorem KeysInv.agrees {s : App} (h : KeysInv s) (hj : saveJobs s = []) :
    ∀ w ∈ s.wallet, ∃ f, s.disk.file = some f ∧ w.nextIndex = f.nextIndex ∧ w.imported = f.imported := by
  intro w hw
  have hok := h.of_wallet (Option.mem_def.mp hw)
  rw [hj] at hok
  cases hok with
  | idle h =>
    obtain ⟨f, hf, -, hn, hi⟩ := h
    exact ⟨f, hf, hn.symm, hi.symm⟩

/-- **Main result.** In every run in which setup installs only what the file still holds and
writes only while no wallet is open, from any state `s` of the run to any later one `t`: no seed
sealed in the file is lost but by its confirmed removal, the file's count of addresses does not
go down, the open wallet and the file agree whenever no save is in flight, and every row has its
own key. -/
theorem wallet_file_keeps_every_key {s₀ s t : App} {tr₀ tr : List (App × AppEvent)} (h₀ : s₀.Started)
    (run₀ : Trace.Run (AppStep E) s₀ tr₀ s) (run : Trace.Run (AppStep E) s tr t)
    (hC₀ : ∀ p ∈ tr₀, KeepsKeys E p.1 p.2) (hC : ∀ p ∈ tr, KeepsKeys E p.1 p.2) :
    (∀ f, s.disk.file = some f → ∀ seed ∈ f.imported,
      t.disk.HasSeed f.master seed ∨ ∃ p ∈ tr, Removes p.1 p.2 seed) ∧
    (∀ f f', s.disk.file = some f → t.disk.file = some f' → f'.master = f.master →
      f.nextIndex ≤ f'.nextIndex) ∧
    (saveJobs t = [] → ∀ w ∈ t.wallet, ∃ f, t.disk.file = some f ∧ w.nextIndex = f.nextIndex ∧
      w.imported = f.imported) ∧
    (∀ w ∈ t.wallet, ∀ e ∈ w.addresses,
      (w.signingSeed E e.source).map (addressForSeed E) = some e.address) := by
  have hinv : ∀ s e t, KeysInv s → KeepsKeys E s e → AppStep E s e t → KeysInv t :=
    fun _ _ _ hi hc hst => (step_keys hi hc hst).1
  have hs : KeysInv s := run₀.invariant (I := KeysInv) hinv (keysInv_started h₀) hC₀
  have ht : KeysInv t := run.invariant (I := KeysInv) hinv hs hC
  refine ⟨fun f hf seed hseed => ?_, fun f f' hf hf' hm => ?_, ht.agrees, fun w hw e he => ?_⟩
  · exact run_hasSeed run hs hC ⟨f, by simp [WalletDisk.all, hf], rfl, hseed⟩
  · have habove : KeysInv t ∧ t.disk.Above f :=
      run.invariant (I := fun u => KeysInv u ∧ u.disk.Above f) (C := KeepsKeys E)
        (fun _ _ _ hi hc hst => ⟨(step_keys hi.1 hc hst).1, (step_keys hi.1 hc hst).2.above hi.2⟩)
        ⟨hs, WalletDisk.above_file hf⟩ hC
    exact habove.2.file f' hf' hm
  · have hrows : RowsResolve E t :=
      (run₀.trans run).invariant (I := RowsResolve E) (C := fun _ _ => True)
        (fun _ _ _ hi _ hst => step_rows hi hst) (by simp [RowsResolve, h₀.1]) (by simp)
    exact (hrows w hw).rows e he

/-! ### A session -/

namespace Sample

/-- A key from elsewhere: 32 bytes. -/
def seed : Text := List.replicate 64 'a'

/-- The key is typed, checked and added, and the file is written. -/
def importSeed : List AppEvent :=
  [.message .importKeyStart, .message (.importKeySeedChanged seed), .message .importKeyCheck,
    .message (.importKeyAdd .done)]

def withSeed : List AppEvent :=
  ([.message .unlock, .answer 0 (.disk .done), .answer 0 .done] : List AppEvent) ++ importSeed

/-- One more address, and its save. -/
def addOne (i : ℕ) : List AppEvent := [.message .addAddress, .answer i (.disk .done), .answer i .done]

theorem imported_key_survives_added_address :
    (play start withSeed).disk.file = some ⟨[7], 1, [seed], ['p']⟩ ∧
      ((play (play start withSeed) (addOne 1)).disk.HasSeed [7] seed ∨
        ∃ p ∈ trace (play start withSeed) (addOne 1), Removes p.1 p.2 seed) := by
  have hfile : (play start withSeed).disk.file = some ⟨[7], 1, [seed], ['p']⟩ := by decide +kernel
  refine ⟨hfile, ?_⟩
  have h := wallet_file_keeps_every_key ⟨rfl, rfl⟩ (run_play start withSeed)
    (run_play (play start withSeed) (addOne 1)) (by decide +kernel) (by decide +kernel)
  exact h.1 _ hfile seed (by simp)

/-- The passphrase was submitted twice, and the key is imported between the two answers. -/
def importedBetween : List AppEvent :=
  ([.message .unlock, .message .unlock, .answer 0 (.disk .done), .answer 0 (.disk .done), .answer 0 .done] :
    List AppEvent) ++ importSeed

/-- The second answer installs the wallet without the key, and the next save seals it. -/
theorem second_unlock_loses_imported_key :
    ¬ ∀ (E : AppEnv) (s₀ s t : App) (tr₀ tr : List (App × AppEvent)), s₀.Started →
      Trace.Run (AppStep E) s₀ tr₀ s → Trace.Run (AppStep E) s tr t →
      (∀ f, s.disk.file = some f → ∀ seed ∈ f.imported,
        t.disk.HasSeed f.master seed ∨ ∃ p ∈ tr, Removes p.1 p.2 seed) ∧
      (∀ f f', s.disk.file = some f → t.disk.file = some f' → f'.master = f.master →
        f.nextIndex ≤ f'.nextIndex) ∧
      (saveJobs t = [] → ∀ w ∈ t.wallet, ∃ f, t.disk.file = some f ∧ w.nextIndex = f.nextIndex ∧
        w.imported = f.imported) ∧
      (∀ w ∈ t.wallet, ∀ e ∈ w.addresses,
        (w.signingSeed E e.source).map (addressForSeed E) = some e.address) := by
  intro h
  have hrun := h env start (play start importedBetween) _ _ _ ⟨rfl, rfl⟩ (run_play start importedBetween)
    (run_play (play start importedBetween) (.answer 0 .done :: addOne 2))
  have hfile : (play start importedBetween).disk.file = some ⟨[7], 1, [seed], ['p']⟩ := by decide +kernel
  rcases hrun.1 _ hfile seed (by simp) with ⟨f, hf, -, hseed⟩ | ⟨p, hp, hrem⟩
  · have hall : (play (play start importedBetween) (.answer 0 .done :: addOne 2)).disk.all =
        [⟨[7], 2, [], ['p']⟩] := by decide +kernel
    rw [hall, List.mem_singleton] at hf
    simp [hf] at hseed
  · have hmem := List.mem_map_of_mem (f := Prod.snd) hp
    rw [trace, Trace.map_snd_visited, hrem.1] at hmem
    simp [addOne] at hmem

end Sample

end Gui

end Alphanumeric
