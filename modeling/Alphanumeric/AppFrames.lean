/-
# What most steps of the wallet application leave alone

Of all the messages only some act on the keys, the figures, the payment or their jobs; the
others fill in forms. `core` is the open wallet less its forms, and `Quiet` says that a step
left it, the tracked jobs, the disk and the node's epoch as they were.

Key definitions: `WalletState.core`, `Job.isTracked`, `FormStep`, `Quiet`, `Message.isForm`, `Job.answeredBy`.
Key theorems: `update_quiet`, `resume_quiet`, `resume_waits`.
-/
import Alphanumeric.WalletApp

namespace Alphanumeric

namespace Gui

variable {E : AppEnv}

/-- The open wallet without its forms and panels. -/
def WalletState.core (w : WalletState) : WalletState :=
  { w with
    send := { SendState.new with stage := w.send.stage, outstanding := w.send.outstanding }
    exporting := false
    importConfirm := false
    importKey := .idle
    removingKey := none }

/-- Jobs about figures, payments and addresses. -/
def Job.isTracked : Job → Bool
  | .poll _ _ _ => true
  | .refresh _ _ _ => true
  | .check _ _ => true
  | .post _ _ => true
  | .save _ => true
  | .saved _ => true
  | _ => false

def tracked (s : App) : List Job := s.jobs.filter Job.isTracked

variable (E) in
/-- The forms changed: a key that now stands checked was checked, and a key that is now to be
removed has a row. -/
structure FormStep (w w' : WalletState) : Prop where
  core : w'.core = w.core
  checked : ∀ seed a, w'.importKey = .checked seed a →
    w.importKey = .checked seed a ∨ (parseImportedSeed seed).map (addressForSeed E) = some a
  removing : ∀ r', w'.removingKey = some r' →
    (∃ r, w.removingKey = some r ∧ r.slot = r'.slot ∧ r.address = r'.address) ∨
    ∃ e ∈ w.addresses, e.source = .imported r'.slot ∧ e.address = r'.address

namespace FormStep

theorem addresses {w w' : WalletState} (h : FormStep E w w') : w'.addresses = w.addresses := by
  have hc := congrArg WalletState.addresses h.core
  exact hc

theorem trans {w w' w'' : WalletState} (h : FormStep E w w') (h' : FormStep E w' w'') : FormStep E w w'' where
  core := h'.core.trans h.core
  checked := by
    intro seed a hc
    rcases h'.checked seed a hc with hc | hc
    · exact h.checked seed a hc
    · exact .inr hc
  removing := by
    intro r'' hr
    rcases h'.removing r'' hr with ⟨r', hr', hs, ha⟩ | ⟨e, he, hs, ha⟩
    · rcases h.removing r' hr' with ⟨r, hr, hs', ha'⟩ | ⟨e, he, hs', ha'⟩
      · exact .inl ⟨r, hr, hs'.trans hs, ha'.trans ha⟩
      · exact .inr ⟨e, he, hs ▸ hs', ha'.trans ha⟩
    · exact .inr ⟨e, h.addresses ▸ he, hs, ha⟩

/-- The panels stayed as they were or were closed. -/
theorem of_core {w w' : WalletState} (hc : w'.core = w.core)
    (hk : w'.importKey = w.importKey ∨ ∀ seed a, w'.importKey ≠ .checked seed a)
    (hr : w'.removingKey = w.removingKey ∨ w'.removingKey = none) : FormStep E w w' where
  core := hc
  checked := by
    intro seed a h
    rcases hk with hk | hk
    · exact .inl (hk ▸ h)
    · exact absurd h (hk seed a)
  removing := by
    intro r h
    rcases hr with hr | hr
    · exact .inl ⟨r, hr ▸ h, rfl, rfl⟩
    · simp [hr] at h

theorem same {w w' : WalletState} (hc : w'.core = w.core) (hk : w'.importKey = w.importKey)
    (hr : w'.removingKey = w.removingKey) : FormStep E w w' := .of_core hc (.inl hk) (.inl hr)

theorem refl (w : WalletState) : FormStep E w w := .same rfl rfl rfl

theorem importKeyCheck (w : WalletState) : FormStep E w (w.importKeyCheck E) := by
  unfold WalletState.importKeyCheck
  split
  · split
    · exact .refl w
    · rename_i parsed hp
      split
      · exact .refl w
      · refine ⟨rfl, fun seed a h => .inr ?_, fun r h => .inl ⟨r, h, rfl, rfl⟩⟩
        simp only [ImportKeyState.checked.injEq] at h
        rw [← h.1, ← h.2, hp]
        rfl
  · exact .refl w

theorem removeKeyStart (slot : ℕ) (w : WalletState) : FormStep E w (w.removeKeyStart slot) := by
  unfold WalletState.removeKeyStart
  split
  · exact .refl w
  · split
    · exact .refl w
    · rename_i entry hf
      refine ⟨rfl, fun seed a h => .inl h, fun r h => .inr ⟨entry, List.mem_of_find?_eq_some hf, ?_⟩⟩
      have hs := List.find?_some hf
      rw [Option.some.injEq] at h
      subst h
      exact ⟨by simpa using hs, rfl⟩

theorem removeKeyTypedChanged (value : Text) (w : WalletState) :
    FormStep E w { w with removingKey := w.removingKey.map fun r => { r with typed := value } } := by
  refine ⟨rfl, fun seed a h => .inl h, fun r' h => .inl ?_⟩
  obtain ⟨r, hr, rfl⟩ := Option.map_eq_some_iff.mp h
  exact ⟨r, hr, rfl, rfl⟩

end FormStep

variable (E) in
structure Quiet (s t : App) : Prop where
  wallet : Option.Rel (FormStep E) s.wallet t.wallet
  jobs : tracked t = tracked s
  disk : t.disk = s.disk
  epoch : t.nodeEpoch = s.nodeEpoch

namespace Quiet

theorem rel_refl : ∀ o : Option WalletState, Option.Rel (FormStep E) o o
  | none => .none
  | some w => .some (.refl w)

theorem refl (s : App) : Quiet E s s := ⟨rel_refl _, rfl, rfl, rfl⟩

theorem trans {s t u : App} (h : Quiet E s t) (h' : Quiet E t u) : Quiet E s u := by
  refine ⟨?_, h'.jobs.trans h.jobs, h'.disk.trans h.disk, h'.epoch.trans h.epoch⟩
  have hst := h.wallet
  have htu := h'.wallet
  generalize s.wallet = a at hst
  generalize t.wallet = b at hst htu
  generalize u.wallet = c at htu
  cases hst with
  | none =>
    cases htu
    exact .none
  | some hst =>
    cases htu with
    | some htu => exact .some (hst.trans htu)

theorem onWallet {s : App} {f : WalletState → WalletState × List Job}
    (h : ∀ w, FormStep E w (f w).1 ∧ (f w).2.filter Job.isTracked = []) : Quiet E s (s.onWallet f) := by
  unfold App.onWallet
  cases hw : s.wallet with
  | none => exact .refl s
  | some w =>
    obtain ⟨hform, hjobs⟩ := h w
    refine ⟨?_, ?_, rfl, rfl⟩
    · rw [hw]
      exact .some hform
    · simp [tracked, hjobs]

theorem edit {s : App} {f : WalletState → WalletState} (h : ∀ w, FormStep E w (f w)) : Quiet E s (s.edit f) :=
  .onWallet fun w => ⟨h w, rfl⟩

theorem setup (s : App) (stage : SetupStage) : Quiet E s { s with setup := stage } :=
  ⟨rel_refl _, rfl, rfl, rfl⟩

theorem start {s : App} {j : Job} (h : j.isTracked = false) : Quiet E s (s.start j) :=
  ⟨rel_refl _, by simp [tracked, App.start, h], rfl, rfl⟩

theorem feeRefresh (s : App) : Quiet E s (s.onWallet WalletState.sendFeeRefresh) := by
  refine .onWallet fun w => ?_
  unfold WalletState.sendFeeRefresh
  split
  · exact ⟨.refl w, rfl⟩
  · exact ⟨.same rfl rfl rfl, rfl⟩

theorem closePanels (s : App) : Quiet E s (s.edit WalletState.closePanels) :=
  .edit fun _ => .of_core rfl (.inr (by simp [WalletState.closePanels])) (.inr rfl)

/-- Leaving for any screen but the wallet's closes the panels. -/
theorem showScreen (s : App) {screen : Screen} (h : screen ≠ .wallet) : Quiet E s (s.showScreen screen) := by
  unfold App.showScreen
  split
  · exact .refl s
  · cases screen with
    | wallet => exact absurd rfl h
    | send => exact (closePanels s).trans (.feeRefresh _)
    | _ => exact closePanels s

theorem importOpened (s : App) (f : Option Sealed) : Quiet E s (s.importOpened E f) := by
  unfold App.importOpened
  split
  · split
    · exact .setup s _
    · split <;> exact .setup s _
  · exact .refl s

/-- A field of the wallet that the forms do not touch. -/
theorem map_wallet {α : Type} {s t : App} (h : Quiet E s t) {π : WalletState → α}
    (hπ : ∀ w, π w.core = π w) : t.wallet.map π = s.wallet.map π := by
  have hrel := h.wallet
  generalize s.wallet = a at hrel
  generalize t.wallet = b at hrel
  cases hrel with
  | none => rfl
  | some hform => rw [Option.map_some, Option.map_some, ← hπ, hform.core, hπ]

theorem filter_jobs {s t : App} (h : Quiet E s t) {q : Job → Bool} (hq : ∀ j, q j = true → j.isTracked = true) :
    t.jobs.filter q = s.jobs.filter q := by
  have hsub : ∀ u : App, u.jobs.filter q = (tracked u).filter q := by
    intro u
    rw [tracked, List.filter_filter]
    refine List.filter_congr fun j _ => ?_
    by_cases hj : q j = true
    · simp [hj, hq j hj]
    · simp [hj]
  rw [hsub, hsub, h.jobs]

end Quiet

/-! ### Messages -/

/-- The messages that fill in forms. -/
def Message.isForm : Message → Bool
  | .show screen => decide (screen ≠ .wallet)
  | .nodeUrlChanged _ => false
  | .retryNode _ => false
  | .startCreate _ _ => false
  | .startRestore _ => false
  | .startImportFile _ => false
  | .importContinue => false
  | .pollTick => false
  | .refreshAll => false
  | .setActiveAddress _ => false
  | .addAddress => false
  | .importKeyAdd _ => false
  | .removeKeyConfirm _ => false
  | .sendReview => false
  | .sendBackToCompose => false
  | .sendConfirm => false
  | .sendRetry => false
  | .sendClear => false
  | _ => true

theorem update_quiet (s : App) {m : Message} (hm : m.isForm = true) : Quiet E s (update E s m) := by
  cases m with
  | «show» screen => exact .showScreen s (by simpa [Message.isForm] using hm)
  | confirmBackup passed =>
    simp only [update]
    split
    · exact .setup s _
    · exact .refl s
  | useMaster master =>
    simp only [update]
    split
    · split
      · exact .refl s
      · exact .setup s _
    · exact .refl s
  | backToChoose =>
    simp only [update]
    split
    · exact .refl s
    · exact .setup s _
  | newPassphraseChanged value =>
    simp only [update]
    split
    · exact .setup s _
    · exact .refl s
  | newPassphraseConfirmChanged value =>
    simp only [update]
    split
    · exact .setup s _
    · exact .refl s
  | confirmNewPassphrase =>
    simp only [update]
    unfold App.confirmNewPassphrase
    split
    · exact .refl s
    · split
      · split
        · exact .refl s
        · exact (Quiet.setup s _).trans (.start rfl)
      · exact .refl s
  | unlockPassphraseChanged value =>
    simp only [update]
    split
    · exact .setup s _
    · exact .refl s
  | unlock =>
    simp only [update]
    unfold App.unlock
    split
    · exact .refl s
    · split
      · exact (Quiet.setup s _).trans (.start rfl)
      · exact .refl s
  | importStart =>
    refine .edit fun w => ?_
    split
    · exact .refl w
    · exact .same rfl rfl rfl
  | importCancelConfirm => exact .edit fun w => .same rfl rfl rfl
  | importAbort =>
    simp only [update]
    unfold App.importAbort
    split
    · exact .refl s
    · exact ⟨Quiet.rel_refl _, rfl, rfl, rfl⟩
  | importFilePicked =>
    simp only [update]
    split
    · exact .setup s _
    · exact .refl s
  | importPassphraseChanged value =>
    simp only [update]
    split
    · exact .setup s _
    · exact .refl s
  | importOpen =>
    simp only [update]
    unfold App.importOpen
    split
    · split
      · exact .refl s
      · exact (Quiet.setup s _).trans (.start rfl)
    · exact .refl s
  | importUse =>
    simp only [update]
    unfold App.importUse
    split
    · exact .refl s
    · split
      · exact (Quiet.setup s _).trans (.start rfl)
      · exact .refl s
  | exporting isOpen => exact .edit fun w => .same rfl rfl rfl
  | importKeyStart =>
    refine .edit fun w => ?_
    unfold WalletState.importKeyStart
    split
    · exact .refl w
    · exact .of_core rfl (.inr (by simp)) (.inl rfl)
  | importKeySeedChanged value => exact .edit fun w => .of_core rfl (.inr (by simp)) (.inl rfl)
  | importKeyCheck => exact .edit fun w => .importKeyCheck w
  | importKeyCancel => exact .edit fun w => .of_core rfl (.inr (by simp)) (.inl rfl)
  | removeKeyStart slot => exact .edit fun w => .removeKeyStart slot w
  | removeKeyTypedChanged value => exact .edit fun w => .removeKeyTypedChanged value w
  | removeKeyCancel => exact .edit fun w => .of_core rfl (.inl rfl) (.inr rfl)
  | sendRecipientChanged value =>
    refine .edit fun w => ?_
    unfold WalletState.sendRecipientChanged
    split
    · exact .same rfl rfl rfl
    · exact .refl w
  | sendAmountChanged value =>
    refine .edit fun w => ?_
    unfold WalletState.sendAmountChanged
    split
    · exact .same rfl rfl rfl
    · exact .refl w
  | sendFeeRefresh => exact .feeRefresh s
  | _ => simp [Message.isForm] at hm

/-! ### Answers -/

/-- The kind of answer a job waits for. -/
def Job.answeredBy : Job → Answer → Bool
  | .poll _ _ _, .address _ => true
  | .refresh _ _ _, .addresses _ => true
  | .fee _, .fee _ => true
  | .check _ _, .ceiling _ _ _ => true
  | .post _ _, .response _ => true
  | .save _, .disk _ => true
  | .saved _, .done => true
  | .openFile _, .opened _ => true
  | .unlock _ _, .disk _ => true
  | .create _ _ _ _, .scan _ _ => true
  | .useFile _ _, .disk _ => true
  | .ready _, .done => true
  | _, _ => false

/-- A job whose answer is of another kind waits on. -/
theorem resume_waits (s : App) {j : Job} {a : Answer} (h : j.answeredBy a = false) :
    resume E s j a = s.start j := by
  cases j <;> cases a <;> first | rfl | simp [Job.answeredBy] at h

variable (E) in
/-- The wallet an event installs. -/
def installs (s : App) : AppEvent → Option Ready
  | .answer i .done =>
    match s.jobs[i]? with
    | some (.ready (some r)) => if E.validUrl r.nodeUrl then some r else none
    | _ => none
  | _ => none

theorem installs_answer {s : App} {i : ℕ} {r : Ready} (hj : s.jobs[i]? = some (.ready (some r)))
    (hu : E.validUrl r.nodeUrl = true) : installs E s (.answer i .done) = some r := by
  simp [installs, hj, hu]

theorem installs_eq_some {s : App} {e : AppEvent} {r : Ready} (h : installs E s e = some r) :
    ∃ i, e = .answer i .done ∧ s.jobs[i]? = some (.ready (some r)) ∧ E.validUrl r.nodeUrl = true := by
  unfold installs at h
  split at h
  · rename_i i
    split at h
    · rename_i r' hj
      split at h
      · rename_i hu
        rw [Option.some.injEq] at h
        subst h
        exact ⟨i, rfl, hj, hu⟩
      · simp at h
    · simp at h
  · simp at h

/-- The answers to setup's own questions, up to the wallet it hands over. -/
def Job.isSetup : Job → Bool
  | .fee _ => true
  | .openFile _ => true
  | .unlock _ _ => true
  | .ready _ => true
  | _ => false

theorem resume_quiet (s : App) {j : Job} {a : Answer} (hj : j.isSetup = true)
    (hr : ∀ r, j = .ready (some r) → a = .done → E.validUrl r.nodeUrl = false) : Quiet E s (resume E s j a) := by
  by_cases ha : j.answeredBy a = true
  · cases j with
    | fee node =>
      cases a with
      | fee r => exact .edit fun w => .same rfl rfl rfl
      | _ => simp [Job.answeredBy] at ha
    | openFile passphrase =>
      cases a with
      | opened f => exact .importOpened s _
      | _ => simp [Job.answeredBy] at ha
    | unlock passphrase nodeUrl =>
      cases a with
      | disk o => exact .start rfl
      | _ => simp [Job.answeredBy] at ha
    | ready r =>
      cases a with
      | done =>
        simp only [resume]
        unfold App.setupReady
        cases r with
        | none => exact .setup s _
        | some r =>
          have hu : E.validUrl r.nodeUrl = false := hr r rfl rfl
          simp only [hu, Bool.not_false, if_true]
          exact .setup s _
      | _ => simp [Job.answeredBy] at ha
    | _ => simp [Job.isSetup] at hj
  · rw [resume_waits s (by simpa using ha)]
    refine .start ?_
    cases j <;> first | rfl | simp [Job.isSetup] at hj

/-! ### Taking a job out -/

theorem deliver_none {s : App} {i : ℕ} (hj : s.jobs[i]? = none) (a : Answer) : deliver E s i a = s := by
  simp only [deliver, hj]

theorem deliver_some {s : App} {i : ℕ} {j : Job} (hj : s.jobs[i]? = some j) (a : Answer) :
    deliver E s i a = resume E (s.take i) j a := by
  simp only [deliver, hj]

/-- A job that was put back is where it was, but for the order. -/
theorem jobs_take_start {s : App} {i : ℕ} {j : Job} (hj : s.jobs[i]? = some j) :
    ((s.take i).start j).jobs.Perm s.jobs := by
  obtain ⟨hi, rfl⟩ := List.getElem?_eq_some_iff.mp hj
  show (s.jobs.eraseIdx i ++ [s.jobs[i]]).Perm s.jobs
  exact (List.perm_append_singleton _ _).trans (List.getElem_cons_eraseIdx_perm hi)

/-- Of a kind with at most one job, the list is the same. -/
theorem filter_take_start {s : App} {i : ℕ} {j : Job} (hj : s.jobs[i]? = some j) {q : Job → Bool}
    (hlen : (s.jobs.filter q).length ≤ 1) : ((s.take i).start j).jobs.filter q = s.jobs.filter q := by
  have hperm := (jobs_take_start hj).filter q
  match hl : s.jobs.filter q with
  | [] =>
    rw [hl] at hperm
    exact hperm.eq_nil
  | [k] =>
    rw [hl] at hperm
    exact List.perm_singleton.mp hperm
  | k :: l :: rest => simp [hl] at hlen

end Gui

end Alphanumeric
