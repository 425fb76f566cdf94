/-
# Payments are neither dropped nor doubled

The send screen holds at most one signed body. It is posted as it is, on every retry, until
the node's answer to that very body is definitive or the user puts it away; what is signed
is what was confirmed, by the sender's key and within what the node said the sender could
spend. All of this rests on the wallet not being replaced under a payment: `SetupReady`
installs whatever it carries, and an unlock that is submitted twice, or again from the
settings, carries a wallet with an empty send screen.

Key definitions: `sendJobs`, `SendInv`, `installs`, `PaymentStep`.
Key theorems: `step_payment`, `payments_never_dropped_or_doubled`.
-/
import Alphanumeric.AppFrames

namespace Alphanumeric

namespace Gui

variable {E : AppEnv}

/-! ### What a payment is -/

def Job.isSend : Job → Bool
  | .check _ _ => true
  | .post _ _ => true
  | _ => false

/-- The checks and posts in flight. -/
def sendJobs (s : App) : List Job := s.jobs.filter Job.isSend

/-- The stage of the send screen and the signed body it holds. -/
def payment (s : App) : Option (SendStage × Option Body) :=
  s.wallet.map fun w => (w.send.stage, w.send.outstanding)

def outstanding (s : App) : Option Body := s.wallet.bind (·.send.outstanding)

variable (E) in
/-- No wallet is installed over one with a payment in progress. -/
def SparesPayment (s : App) (e : AppEvent) : Prop :=
  (installs E s e).isSome = true → ∀ w ∈ s.wallet, w.send.inProgress = false

variable (E) in
/-- The body is let go: the node's answer to it is definitive, or the user clears the answer. -/
def Forgets (s : App) (e : AppEvent) (b : Body) : Prop :=
  (∃ i r node, e = .answer i (.response r) ∧ s.jobs[i]? = some (.post node b) ∧
    (verdict E.parse (submitAnswer E.parse r)).definitive = true) ∨
  (e = .message .sendClear ∧ ∃ w v, s.wallet = some w ∧ w.send.stage = .answered v)

variable (E) in
/-- The body is signed: the figures just asked for the confirmed sender allow it, and it is the
confirmed payment under that sender's key. -/
def Signs (s : App) (e : AppEvent) (b : Body) : Prop :=
  outstanding s = none ∧ ∃ i node p w state units now key seed,
    e = .answer i (.ceiling (.ok state) (some now) key) ∧ s.jobs[i]? = some (.check node p) ∧
    s.wallet = some w ∧ w.send.stage = .checking p ∧ state.spendableUnits = some units ∧
    p.amountUnits + p.feeUnits ≤ units ∧ w.signingSeed E p.senderSource = some seed ∧
    addressForSeed E seed = p.sender ∧
    b = buildSubmission E key seed p.sender p.recipient p.amountUnits p.feeUnits now

variable (E) in
/-- What a step may do to a payment. -/
structure PaymentStep (s : App) (e : AppEvent) (t : App) : Prop where
  kept : ∀ b, outstanding s = some b → outstanding t = some b ∨ (outstanding t = none ∧ Forgets E s e b)
  signed : ∀ b, outstanding t = some b → outstanding s ≠ some b → Signs E s e b
  answered : ∀ i a node b, e = .answer i a → s.jobs[i]? = some (.post node b) → outstanding s = some b
  posts : ∀ node b, .post node b ∈ t.jobs → outstanding t = some b
  single : (sendJobs t).length ≤ 1
  asked : ∀ node p, .check node p ∈ t.jobs → .check node p ∉ s.jobs →
    e = .message .sendConfirm ∧ ∃ w, s.wallet = some w ∧ w.send.stage = .confirm p

/-! ### The invariant -/

/-- The total on the confirmation is what will be signed. -/
def Sums (p : Prepared) : Prop := p.totalUnits = p.amountUnits + p.feeUnits

/-- The stage says which of a payment's jobs is in flight. -/
def SendOk : Option (SendStage × Option Body) → List Job → Prop
  | none, jobs => jobs = []
  | some (.compose, o), jobs => o = none ∧ jobs = []
  | some (.confirm p, o), jobs => o = none ∧ jobs = [] ∧ Sums p
  | some (.checking p, o), jobs => o = none ∧ (∃ node, jobs = [.check node p]) ∧ Sums p
  | some (.sending, o), jobs => ∃ node b, o = some b ∧ jobs = [.post node b]
  | some (.answered _, _), jobs => jobs = []

def SendInv (s : App) : Prop := SendOk (payment s) (sendJobs s)

/-- Neither the send screen nor its jobs changed. -/
structure SameSend (s t : App) : Prop where
  payment : payment t = payment s
  jobs : sendJobs t = sendJobs s

theorem SameSend.refl (s : App) : SameSend s s := ⟨rfl, rfl⟩

theorem SameSend.trans {s t u : App} (h : SameSend s t) (h' : SameSend t u) : SameSend s u :=
  ⟨h'.payment.trans h.payment, h'.jobs.trans h.jobs⟩

theorem SameSend.inv {s t : App} (h : SameSend s t) (hs : SendInv s) : SendInv t := by
  unfold SendInv
  rw [h.payment, h.jobs]
  exact hs

theorem SameSend.outstanding {s t : App} (h : SameSend s t) : outstanding t = outstanding s := by
  have hp : ∀ u : App, Gui.outstanding u = (Gui.payment u).bind (·.2) := by
    intro u
    unfold Gui.outstanding Gui.payment
    cases u.wallet <;> rfl
  rw [hp, hp, h.payment]

theorem SameSend.onWallet {s : App} {f : WalletState → WalletState × List Job}
    (h : ∀ w, (f w).1.send.stage = w.send.stage ∧ (f w).1.send.outstanding = w.send.outstanding ∧
      (f w).2.filter Job.isSend = []) : SameSend s (s.onWallet f) := by
  unfold App.onWallet
  cases hw : s.wallet with
  | none => exact .refl s
  | some w =>
    obtain ⟨h₁, h₂, h₃⟩ := h w
    constructor
    · simp [Gui.payment, hw, h₁, h₂]
    · simp [sendJobs, h₃]

theorem SameSend.edit {s : App} {f : WalletState → WalletState}
    (h : ∀ w, (f w).send.stage = w.send.stage ∧ (f w).send.outstanding = w.send.outstanding) :
    SameSend s (s.edit f) := SameSend.onWallet fun w => ⟨(h w).1, (h w).2, rfl⟩

theorem SameSend.start {s : App} {j : Job} (h : j.isSend = false) : SameSend s (s.start j) :=
  ⟨rfl, by simp [sendJobs, App.start, h]⟩

theorem SameSend.retarget (s : App) (url : Text) : SameSend s (s.retarget E url) := by
  constructor
  · unfold Gui.payment App.retarget
    cases s.wallet with
    | none => rfl
    | some w => by_cases h : E.validUrl url = true <;> simp [h]
  · rfl

theorem SameSend.startOwned (s : App) (owned : Option Text) : SameSend s (s.startOwned E owned) := by
  cases owned with
  | none => exact .refl s
  | some url => exact .retarget s url

theorem SameSend.refreshAll (s : App) : SameSend s s.refreshAll := by
  refine .onWallet fun w => ?_
  unfold WalletState.refreshAll
  split <;> exact ⟨rfl, rfl, rfl⟩

theorem SameSend.of_quiet {s t : App} (h : Quiet E s t) : SameSend s t where
  payment := h.map_wallet fun _ => rfl
  jobs := by
    refine h.filter_jobs fun j hj => ?_
    cases j <;> first | rfl | simp [Job.isSend] at hj

theorem SameSend.showWallet (s : App) : SameSend s (s.showScreen .wallet) := by
  unfold App.showScreen
  split
  · exact .refl s
  · have hclose : SameSend s (s.edit WalletState.closePanels) := .edit fun w => ⟨rfl, rfl⟩
    exact hclose.trans (.refreshAll _)

theorem SameSend.importKeyAdd (s : App) (saved : DiskOutcome) : SameSend s (s.importKeyAdd saved) := by
  unfold App.importKeyAdd
  cases hw : s.wallet with
  | none => exact .refl s
  | some w =>
    simp only
    split
    · exact ⟨by simp [Gui.payment, hw], rfl⟩
    · split
      · refine SameSend.trans ⟨?_, ?_⟩ (.refreshAll _)
        · simp [Gui.payment, hw, WalletState.addKey]
        · rfl
      · exact ⟨by simp [Gui.payment, hw], rfl⟩
    · exact .refl s

theorem SameSend.removeKeyConfirm (s : App) (saved : DiskOutcome) :
    SameSend s (s.removeKeyConfirm saved) := by
  unfold App.removeKeyConfirm
  cases hw : s.wallet with
  | none => exact .refl s
  | some w =>
    simp only
    split
    · split
      · exact .refl s
      · split
        · exact .refl s
        · split
          · exact ⟨by simp [Gui.payment, hw, WalletState.dropKey], rfl⟩
          · exact ⟨by simp [Gui.payment, hw, WalletState.dropKey, WalletState.restoreKey], rfl⟩
    · exact .refl s

/-- The messages that act on a payment or close the wallet. -/
def Message.isPayment : Message → Bool
  | .sendReview => true
  | .sendBackToCompose => true
  | .sendConfirm => true
  | .sendRetry => true
  | .sendClear => true
  | .importContinue => true
  | _ => false

/-- Every other message of the views leaves the payment alone. -/
theorem update_same (s : App) {m : Message} (hm : m.isPayment = false) : SameSend s (update E s m) := by
  by_cases hf : m.isForm = true
  · exact .of_quiet (update_quiet s hf)
  cases m with
  | «show» screen =>
    have hw : screen = .wallet := by simpa [Message.isForm] using hf
    exact hw ▸ .showWallet s
  | nodeUrlChanged url => exact .retarget s url
  | retryNode url => exact (SameSend.retarget s url).trans (.of_quiet (E := E) (.showScreen _ (by decide)))
  | startCreate master owned => exact (SameSend.startOwned s owned).trans ⟨rfl, rfl⟩
  | startRestore owned => exact (SameSend.startOwned s owned).trans ⟨rfl, rfl⟩
  | startImportFile owned => exact (SameSend.startOwned s owned).trans ⟨rfl, rfl⟩
  | pollTick =>
    refine .onWallet fun w => ?_
    unfold WalletState.pollTick
    split
    · exact ⟨rfl, rfl, rfl⟩
    · split <;> exact ⟨rfl, rfl, rfl⟩
  | refreshAll => exact .refreshAll s
  | setActiveAddress position =>
    refine .edit fun w => ?_
    unfold WalletState.setActiveAddress
    split <;> exact ⟨rfl, rfl⟩
  | addAddress =>
    refine .onWallet fun w => ?_
    unfold WalletState.addAddress
    split <;> exact ⟨rfl, rfl, rfl⟩
  | importKeyAdd saved => exact .importKeyAdd s saved
  | removeKeyConfirm saved => exact .removeKeyConfirm s saved
  | _ => simp [Message.isPayment, Message.isForm] at hm hf

/-! ### Answers that are not about a payment -/

theorem SameSend.erase {s : App} {i : ℕ} {j : Job} (hj : s.jobs[i]? = some j) (h : j.isSend = false) :
    SameSend s (s.take i) := ⟨rfl, filter_eraseIdx_other h hj⟩

theorem SameSend.replaceFile (s : App) (f : Sealed) (nodeUrl : Text) (o : DiskOutcome) :
    SameSend s (s.replaceFile f nodeUrl o).1 := ⟨rfl, rfl⟩

theorem SameSend.addressStoreSaved (s : App) (next : Option ℕ) :
    SameSend s (s.edit (WalletState.addressStoreSaved E next)) := by
  refine .edit fun w => ?_
  unfold WalletState.addressStoreSaved
  cases next <;> exact ⟨rfl, rfl⟩

/-- Of the other answers only an installed wallet touches the payment. -/
theorem resume_same (s : App) {j : Job} {a : Answer} (hj : j.isSend = false)
    (hr : ∀ r, j = .ready (some r) → a = .done → E.validUrl r.nodeUrl = false) :
    SameSend s (resume E s j a) := by
  by_cases hset : j.isSetup = true
  · exact .of_quiet (resume_quiet s hset hr)
  by_cases ha : j.answeredBy a = true
  · cases j with
    | poll epoch node asked =>
      cases a with
      | address r =>
        refine .edit fun w => ?_
        unfold WalletState.pollTickFetched
        simp only
        split <;> exact ⟨rfl, rfl⟩
      | _ => simp [Job.answeredBy] at ha
    | refresh epoch node asked =>
      cases a with
      | addresses rs =>
        refine .edit fun w => ?_
        unfold WalletState.refreshAllFetched
        simp only
        split <;> exact ⟨rfl, rfl⟩
      | _ => simp [Job.answeredBy] at ha
    | save f =>
      cases a with
      | disk o => exact SameSend.trans (t := { s with disk := s.disk.save f o }) ⟨rfl, rfl⟩ (.start rfl)
      | _ => simp [Job.answeredBy] at ha
    | saved next =>
      cases a with
      | done =>
        simp only [resume]
        split
        · exact (SameSend.addressStoreSaved s next).trans (.refreshAll _)
        · exact .addressStoreSaved s next
      | _ => simp [Job.answeredBy] at ha
    | create master restored passphrase nodeUrl =>
      cases a with
      | scan found o =>
        simp only [resume]
        split
        · exact .start rfl
        · exact (SameSend.replaceFile s _ nodeUrl o).trans (.start rfl)
      | _ => simp [Job.answeredBy] at ha
    | useFile f nodeUrl =>
      cases a with
      | disk o => exact (SameSend.replaceFile s f nodeUrl o).trans (.start rfl)
      | _ => simp [Job.answeredBy] at ha
    | _ => simp [Job.isSend, Job.isSetup] at hj hset
  · rw [resume_waits s (by simpa using ha)]
    exact .start hj

/-! ### The stages of a payment -/

theorem SendOk.length_le : ∀ {p : Option (SendStage × Option Body)} {jobs : List Job},
    SendOk p jobs → jobs.length ≤ 1
  | none, _, h => by simp [show _ = [] from h]
  | some (.compose, _), _, h => by simp [h.2]
  | some (.confirm _, _), _, h => by simp [h.2.1]
  | some (.checking _, _), _, h => by
    obtain ⟨node, hj⟩ := h.2.1
    simp [hj]
  | some (.sending, _), _, h => by
    obtain ⟨node, b, -, hj⟩ := h
    simp [hj]
  | some (.answered _, _), _, h => by simp [show _ = [] from h]

theorem SendOk.post : ∀ {p : Option (SendStage × Option Body)} {jobs : List Job} {node : Text} {b : Body},
    SendOk p jobs → .post node b ∈ jobs → p = some (.sending, some b) ∧ jobs = [.post node b]
  | none, _, _, _, h, hm => by simp [show _ = [] from h] at hm
  | some (.compose, _), _, _, _, h, hm => by simp [h.2] at hm
  | some (.confirm _, _), _, _, _, h, hm => by simp [h.2.1] at hm
  | some (.checking _, _), _, _, _, h, hm => by
    obtain ⟨node, hj⟩ := h.2.1
    simp [hj] at hm
  | some (.sending, _), _, _, _, h, hm => by
    obtain ⟨node, b, rfl, hj⟩ := h
    rw [hj, List.mem_singleton, Job.post.injEq] at hm
    rw [hj, hm.1, hm.2]
    exact ⟨rfl, rfl⟩
  | some (.answered _, _), _, _, _, h, hm => by simp [show _ = [] from h] at hm

theorem SendOk.check : ∀ {q : Option (SendStage × Option Body)} {jobs : List Job} {node : Text} {p : Prepared},
    SendOk q jobs → .check node p ∈ jobs → q = some (.checking p, none) ∧ jobs = [.check node p] ∧ Sums p
  | none, _, _, _, h, hm => by simp [show _ = [] from h] at hm
  | some (.compose, _), _, _, _, h, hm => by simp [h.2] at hm
  | some (.confirm _, _), _, _, _, h, hm => by simp [h.2.1] at hm
  | some (.checking _, _), _, _, _, h, hm => by
    obtain ⟨rfl, ⟨node, hj⟩, hsum⟩ := h
    rw [hj, List.mem_singleton, Job.check.injEq] at hm
    rw [hj, hm.1, hm.2]
    exact ⟨rfl, rfl, hsum⟩
  | some (.sending, _), _, _, _, h, hm => by
    obtain ⟨node, b, -, hj⟩ := h
    simp [hj] at hm
  | some (.answered _, _), _, _, _, h, hm => by simp [show _ = [] from h] at hm

theorem mem_sendJobs {s : App} {j : Job} (h : j.isSend = true) : j ∈ sendJobs s ↔ j ∈ s.jobs := by
  simp [sendJobs, h]

theorem outstanding_eq (s : App) : outstanding s = (payment s).bind (·.2) := by
  unfold outstanding payment
  cases s.wallet <;> rfl

theorem payment_some {s : App} {w : WalletState} (hw : s.wallet = some w) :
    payment s = some (w.send.stage, w.send.outstanding) := by simp [payment, hw]

/-- What is left to say of a step between two states that are in order. -/
theorem PaymentStep.of_inv {s t : App} {e : AppEvent} (hs : SendInv s) (ht : SendInv t)
    (kept : ∀ b, outstanding s = some b → outstanding t = some b ∨ (outstanding t = none ∧ Forgets E s e b))
    (signed : ∀ b, outstanding t = some b → outstanding s ≠ some b → Signs E s e b)
    (asked : ∀ node p, .check node p ∈ sendJobs t → .check node p ∉ sendJobs s →
      e = .message .sendConfirm ∧ ∃ w, s.wallet = some w ∧ w.send.stage = .confirm p) :
    PaymentStep E s e t where
  kept := kept
  signed := signed
  answered := by
    intro i a node b _ hj
    have hm : .post node b ∈ sendJobs s := (mem_sendJobs rfl).mpr (List.mem_of_getElem? hj)
    rw [outstanding_eq, (SendOk.post hs hm).1]
    rfl
  posts := by
    intro node b hm
    rw [outstanding_eq, (SendOk.post ht ((mem_sendJobs rfl).mpr hm)).1]
    rfl
  single := SendOk.length_le ht
  asked := by
    intro node p hm hn
    exact asked node p ((mem_sendJobs rfl).mpr hm) fun h => hn ((mem_sendJobs rfl).mp h)

/-- A step that neither signs, forgets nor asks. -/
theorem PaymentStep.quiet {s t : App} {e : AppEvent} (hs : SendInv s) (ht : SendInv t)
    (ho : outstanding t = outstanding s)
    (hc : ∀ node p, .check node p ∈ sendJobs t → .check node p ∈ sendJobs s) : PaymentStep E s e t :=
  .of_inv hs ht (fun _ hb => .inl (ho.trans hb)) (fun _ hb hn => absurd (ho.symm.trans hb) hn)
    fun node p hm hn => absurd (hc node p hm) hn

theorem SameSend.step {s t : App} {e : AppEvent} (h : SameSend s t) (hs : SendInv s) :
    SendInv t ∧ PaymentStep E s e t :=
  ⟨h.inv hs, .quiet hs (h.inv hs) h.outstanding fun _ _ hm => h.jobs ▸ hm⟩

theorem onWallet_none {s : App} {f : WalletState → WalletState × List Job} (hw : s.wallet = none) :
    s.onWallet f = s := by simp [App.onWallet, hw]

theorem payment_onWallet {s : App} {f : WalletState → WalletState × List Job} {w : WalletState}
    (hw : s.wallet = some w) :
    payment (s.onWallet f) = some ((f w).1.send.stage, (f w).1.send.outstanding) := by
  simp [payment, App.onWallet, hw]

theorem sendJobs_onWallet {s : App} {f : WalletState → WalletState × List Job} {w : WalletState}
    (hw : s.wallet = some w) :
    sendJobs (s.onWallet f) = sendJobs s ++ (f w).2.filter Job.isSend := by
  simp [sendJobs, App.onWallet, hw]

/-! ### Messages about a payment -/

theorem SendInv.of_wallet {s : App} {w : WalletState} (hw : s.wallet = some w) (hs : SendInv s) :
    SendOk (some (w.send.stage, w.send.outstanding)) (sendJobs s) := by
  unfold SendInv at hs
  rwa [payment_some hw] at hs

/-- Only the stage of the send screen changed, and no payment job started. -/
theorem step_stage {s : App} {e : AppEvent} {f : WalletState → WalletState} {w : WalletState}
    (hw : s.wallet = some w) (hs : SendInv s) (ho : (f w).send.outstanding = w.send.outstanding)
    (ht : SendOk (some ((f w).send.stage, (f w).send.outstanding)) (sendJobs s)) :
    SendInv (s.edit f) ∧ PaymentStep E s e (s.edit f) := by
  have hp : payment (s.edit f) = some ((f w).send.stage, (f w).send.outstanding) := payment_onWallet hw
  have hj : sendJobs (s.edit f) = sendJobs s := by simp [App.edit, sendJobs_onWallet hw]
  have hinv : SendInv (s.edit f) := by
    unfold SendInv
    rwa [hp, hj]
  refine ⟨hinv, .quiet hs hinv ?_ fun node p hm => hj ▸ hm⟩
  rw [outstanding_eq, outstanding_eq, hp, payment_some hw]
  exact ho

theorem sendReview_cases (w : WalletState) : WalletState.sendReview E w = w ∨
    ∃ p, w.send.stage = .compose ∧ Sums p ∧
      WalletState.sendReview E w = w.onSend fun s => { s with stage := .confirm p } := by
  unfold WalletState.sendReview
  split
  · rename_i hc
    split
    · exact .inl rfl
    · split
      · rename_i p hp
        exact .inr ⟨p, hc, (preparePayment_ok hp).2.2, rfl⟩
      · exact .inl rfl
  · exact .inl rfl

theorem step_sendReview {s : App} (hs : SendInv s) :
    SendInv (update E s .sendReview) ∧ PaymentStep E s (.message .sendReview) (update E s .sendReview) := by
  cases hw : s.wallet with
  | none =>
    rw [show update E s .sendReview = s from onWallet_none hw]
    exact (SameSend.refl s).step hs
  | some w =>
    have hok := hs.of_wallet hw
    obtain hr | ⟨p, hc, hp, hr⟩ := sendReview_cases (E := E) w
    · exact step_stage hw hs (by rw [hr]) (by rwa [hr])
    · rw [hc] at hok
      refine step_stage hw hs (by rw [hr]; rfl) ?_
      rw [hr]
      exact ⟨hok.1, hok.2, hp⟩

theorem step_sendBackToCompose {s : App} (hs : SendInv s) :
    SendInv (update E s .sendBackToCompose) ∧
      PaymentStep E s (.message .sendBackToCompose) (update E s .sendBackToCompose) := by
  cases hw : s.wallet with
  | none =>
    rw [show update E s .sendBackToCompose = s from onWallet_none hw]
    exact (SameSend.refl s).step hs
  | some w =>
    have hok := hs.of_wallet hw
    refine step_stage hw hs ?_ ?_
    · unfold WalletState.sendBackToCompose
      split <;> rfl
    · unfold WalletState.sendBackToCompose
      split
      · rename_i p hc
        rw [hc] at hok
        exact ⟨hok.1, hok.2.1⟩
      · exact hok

theorem step_sendConfirm {s : App} (hs : SendInv s) :
    SendInv (update E s .sendConfirm) ∧ PaymentStep E s (.message .sendConfirm) (update E s .sendConfirm) := by
  have hu : update E s .sendConfirm = s.onWallet WalletState.sendConfirm := rfl
  rw [hu]
  cases hw : s.wallet with
  | none =>
    rw [onWallet_none hw]
    exact (SameSend.refl s).step hs
  | some w =>
    have hok := hs.of_wallet hw
    have hp := payment_onWallet (f := WalletState.sendConfirm) hw
    have hj := sendJobs_onWallet (f := WalletState.sendConfirm) hw
    by_cases hc : ∃ p, w.send.stage = .confirm p
    · obtain ⟨p, hc⟩ := hc
      rw [hc] at hok
      obtain ⟨ho, hjobs, hsum⟩ := hok
      have hf : w.sendConfirm = (w.onSend fun s => { s with stage := .checking p }, [.check w.client p]) := by
        simp [WalletState.sendConfirm, ho, hc]
      rw [hf] at hp hj
      rw [hjobs] at hj
      have hinv : SendInv (s.onWallet WalletState.sendConfirm) := by
        unfold SendInv
        rw [hp, hj]
        exact ⟨ho, ⟨w.client, rfl⟩, hsum⟩
      refine ⟨hinv, .of_inv hs hinv ?_ ?_ ?_⟩
      · intro b hb
        rw [outstanding_eq, payment_some hw] at hb
        simp [ho] at hb
      · intro b hb
        rw [outstanding_eq, hp] at hb
        simp [WalletState.onSend, ho] at hb
      · intro node q hm _
        rw [hj] at hm
        simp only [List.nil_append, List.mem_filter, List.mem_singleton, Job.check.injEq] at hm
        exact ⟨rfl, w, hw, hm.1.2 ▸ hc⟩
    · have hf : w.sendConfirm = (w, []) := by
        unfold WalletState.sendConfirm
        split
        · rfl
        · split
          · rename_i p hp
            exact absurd ⟨p, hp⟩ hc
          · rfl
      rw [hf] at hp hj
      exact SameSend.step ⟨hp.trans (payment_some hw).symm, by simpa using hj⟩ hs

/-- A retry posts the body it already has, and only when no post of it is in flight. -/
theorem step_sendRetry {s : App} (hs : SendInv s) :
    SendInv (update E s .sendRetry) ∧ PaymentStep E s (.message .sendRetry) (update E s .sendRetry) := by
  have hu : update E s .sendRetry = s.onWallet WalletState.sendRetry := rfl
  rw [hu]
  cases hw : s.wallet with
  | none =>
    rw [onWallet_none hw]
    exact (SameSend.refl s).step hs
  | some w =>
    have hok := hs.of_wallet hw
    have hp := payment_onWallet (f := WalletState.sendRetry) hw
    have hj := sendJobs_onWallet (f := WalletState.sendRetry) hw
    by_cases hc : w.send.outstanding.isNone || w.send.stage = .sending
    · have hf : w.sendRetry = (w, []) := by simp only [WalletState.sendRetry, hc, if_true]
      rw [hf] at hp hj
      exact SameSend.step ⟨hp.trans (payment_some hw).symm, by simpa using hj⟩ hs
    · obtain ⟨b, hb⟩ : ∃ b, w.send.outstanding = some b := by
        cases ho : w.send.outstanding with
        | none => simp [ho] at hc
        | some b => exact ⟨b, rfl⟩
      have hjobs : sendJobs s = [] := by
        rw [hb] at hok
        cases hst : w.send.stage with
        | compose => simp [hst, SendOk] at hok
        | confirm p => simp [hst, SendOk] at hok
        | checking p => simp [hst, SendOk] at hok
        | sending => simp [hst] at hc
        | answered v =>
          rw [hst] at hok
          exact hok
      have hf : w.sendRetry = (w.onSend fun s => { s with stage := .sending }, [.post w.client b]) := by
        simp only [WalletState.sendRetry, hc]
        simp [WalletState.submitOutstanding, WalletState.onSend, hb]
      rw [hf] at hp hj
      rw [hjobs] at hj
      have hinv : SendInv (s.onWallet WalletState.sendRetry) := by
        unfold SendInv
        rw [hp, hj]
        exact ⟨w.client, b, hb, rfl⟩
      refine ⟨hinv, .quiet hs hinv ?_ ?_⟩
      · rw [outstanding_eq, outstanding_eq, hp, payment_some hw]
        rfl
      · intro node q hm
        rw [hj] at hm
        simp [Job.isSend] at hm

theorem step_sendClear {s : App} (hs : SendInv s) :
    SendInv (update E s .sendClear) ∧ PaymentStep E s (.message .sendClear) (update E s .sendClear) := by
  have hu : update E s .sendClear = s.edit WalletState.sendClear := rfl
  rw [hu]
  cases hw : s.wallet with
  | none =>
    rw [App.edit, onWallet_none hw]
    exact (SameSend.refl s).step hs
  | some w =>
    have hok := hs.of_wallet hw
    cases hst : w.send.stage with
    | compose =>
      rw [hst] at hok
      have hf : w.sendClear = w.onSend SendState.reset := by simp [WalletState.sendClear, hst]
      exact step_stage hw hs (by rw [hf, hok.1]; rfl) (by rw [hf]; exact ⟨rfl, hok.2⟩)
    | confirm p =>
      rw [hst] at hok
      have hf : w.sendClear = w.onSend SendState.reset := by simp [WalletState.sendClear, hst]
      exact step_stage hw hs (by rw [hf, hok.1]; rfl) (by rw [hf]; exact ⟨rfl, hok.2.1⟩)
    | checking p =>
      have hf : w.sendClear = w := by simp [WalletState.sendClear, hst]
      exact step_stage hw hs (by rw [hf]) (by rwa [hf])
    | sending =>
      have hf : w.sendClear = w := by simp [WalletState.sendClear, hst]
      exact step_stage hw hs (by rw [hf]) (by rwa [hf])
    | answered v =>
      rw [hst] at hok
      have hp : payment (s.edit WalletState.sendClear) = some (.compose, none) := by
        rw [App.edit, payment_onWallet hw]
        simp only [WalletState.sendClear, hst]
        cases keepsTheForm v <;> rfl
      have hj : sendJobs (s.edit WalletState.sendClear) = [] := by
        rw [App.edit, sendJobs_onWallet hw, show sendJobs s = [] from hok]
        rfl
      have hinv : SendInv (s.edit WalletState.sendClear) := by
        unfold SendInv
        rw [hp, hj]
        exact ⟨rfl, rfl⟩
      refine ⟨hinv, .of_inv hs hinv ?_ ?_ ?_⟩
      · intro b _
        refine .inr ⟨?_, .inr ⟨rfl, w, v, hw, hst⟩⟩
        rw [outstanding_eq, hp]
        rfl
      · intro b hb
        rw [outstanding_eq, hp] at hb
        simp at hb
      · intro node p hm
        simp [hj] at hm

/-- A send screen on which nothing is in progress has no job and no body. -/
theorem SendOk.idle {w : WalletState} {jobs : List Job} (h : SendOk (some (w.send.stage, w.send.outstanding)) jobs)
    (hi : w.send.inProgress = false) : jobs = [] ∧ w.send.outstanding = none := by
  have ho : w.send.outstanding = none := by
    cases ho : w.send.outstanding with
    | none => rfl
    | some b => simp [SendState.inProgress, ho] at hi
  refine ⟨?_, ho⟩
  cases hst : w.send.stage with
  | compose =>
    rw [hst] at h
    exact h.2
  | confirm p =>
    rw [hst] at h
    exact h.2.1
  | checking p => simp [SendState.inProgress, hst] at hi
  | sending => simp [SendState.inProgress, hst] at hi
  | answered v =>
    rw [hst] at h
    exact h

/-- With nothing in progress, the next state may be anything that is itself at rest. -/
theorem step_idle {s t : App} {e : AppEvent} (hs : SendInv s) (hi : ∀ w ∈ s.wallet, w.send.inProgress = false)
    (ht : SendInv t) (ho : outstanding t = none) (hj : sendJobs t = []) :
    SendInv t ∧ PaymentStep E s e t := by
  have hnone : outstanding s = none := by
    cases hw : s.wallet with
    | none => simp [outstanding, hw]
    | some w => simp [outstanding, hw, (SendOk.idle (hs.of_wallet hw) (hi w hw)).2]
  exact ⟨ht, .quiet hs ht (ho.trans hnone.symm) fun node p hm => by simp [hj] at hm⟩

theorem sendJobs_idle {s : App} (hs : SendInv s) (hi : ∀ w ∈ s.wallet, w.send.inProgress = false) :
    sendJobs s = [] := by
  cases hw : s.wallet with
  | none =>
    unfold SendInv payment at hs
    rw [hw] at hs
    exact hs
  | some w => exact (SendOk.idle (hs.of_wallet hw) (hi w hw)).1

theorem step_importContinue {s : App} (hs : SendInv s) :
    SendInv (update E s .importContinue) ∧
      PaymentStep E s (.message .importContinue) (update E s .importContinue) := by
  have hu : update E s .importContinue = s.importContinue := rfl
  rw [hu]
  cases hw : s.wallet with
  | none =>
    rw [show s.importContinue = s by simp [App.importContinue, hw]]
    exact (SameSend.refl s).step hs
  | some w =>
    by_cases hb : w.importBlocked || !w.importConfirm
    · rw [show s.importContinue = s by simp only [App.importContinue, hw, hb, if_true]]
      exact (SameSend.refl s).step hs
    · have hi : ∀ v ∈ s.wallet, v.send.inProgress = false := by
        intro v hv
        rw [hw, Option.mem_some_iff] at hv
        subst hv
        simp only [WalletState.importBlocked, Bool.or_eq_true, not_or, Bool.not_eq_true] at hb
        exact hb.1.1.2
      have hj : sendJobs s.importContinue = [] := by
        rw [← sendJobs_idle hs hi]
        simp only [App.importContinue, hw, hb]
        rfl
      have hp : payment s.importContinue = none := by
        simp only [payment, App.importContinue, hw, hb]
        rfl
      refine step_idle hs hi ?_ (by rw [outstanding_eq, hp]; rfl) hj
      unfold SendInv
      rw [hp, hj]
      exact rfl

/-! ### Answers about a payment -/

/-- The job of a payment is the only one, and none is left once it is taken out. -/
theorem sendJobs_erase {s : App} {i : ℕ} {j k : Job} (hj : s.jobs[i]? = some j) (hk : j.isSend = true)
    (hs : sendJobs s = [k]) : sendJobs (s.take i) = [] :=
  (filter_eraseIdx_single hk hj hs).2

theorem step_response {s : App} {i : ℕ} {node : Text} {b : Body} {r : HttpResponse ⊕ Text} (hs : SendInv s)
    (hj : s.jobs[i]? = some (.post node b)) :
    SendInv (deliver E s i (.response r)) ∧
      PaymentStep E s (.answer i (.response r)) (deliver E s i (.response r)) := by
  have hm : .post node b ∈ sendJobs s := (mem_sendJobs rfl).mpr (List.mem_of_getElem? hj)
  obtain ⟨hpay, hjobs⟩ := SendOk.post hs hm
  obtain ⟨w, hw, hst, ho⟩ : ∃ w, s.wallet = some w ∧ w.send.stage = .sending ∧ w.send.outstanding = some b := by
    unfold payment at hpay
    obtain ⟨w, hw, h⟩ := Option.map_eq_some_iff.mp hpay
    rw [Prod.mk.injEq] at h
    exact ⟨w, hw, h⟩
  set v := verdict E.parse (submitAnswer E.parse r) with hv
  have hd : deliver E s i (.response r) =
      (s.take i).edit (WalletState.sendSubmitted v) := by
    simp only [deliver, hj, resume, ← hv]
  have hw' : (s.take i).wallet = some w := hw
  have hp : payment (deliver E s i (.response r)) =
      some (.answered v, if v.definitive then none else some b) := by
    rw [hd, App.edit, payment_onWallet hw']
    simp [WalletState.sendSubmitted, WalletState.onSend, ho]
  have hj' : sendJobs (deliver E s i (.response r)) = [] := by
    rw [hd, App.edit, sendJobs_onWallet hw', sendJobs_erase hj rfl hjobs]
    rfl
  have hinv : SendInv (deliver E s i (.response r)) := by
    unfold SendInv
    rw [hp, hj']
    exact rfl
  have hout : outstanding (deliver E s i (.response r)) = if v.definitive then none else some b := by
    rw [outstanding_eq, hp]
    rfl
  have hb : outstanding s = some b := by
    rw [outstanding_eq, hpay]
    rfl
  refine ⟨hinv, .of_inv hs hinv ?_ ?_ ?_⟩
  · intro b' hb'
    rw [hb, Option.some.injEq] at hb'
    subst hb'
    rw [hout]
    by_cases hdef : v.definitive = true
    · exact .inr ⟨if_pos hdef, .inl ⟨i, r, node, rfl, hj, hdef⟩⟩
    · exact .inl (if_neg hdef)
  · intro b' hb' hne
    rw [hout] at hb'
    by_cases hdef : v.definitive = true
    · simp [hdef] at hb'
    · rw [if_neg hdef] at hb'
      exact absurd (hb.trans hb') hne
  · intro node' p hm'
    simp [hj'] at hm'

theorem recheckSpendable_ok {p : Prepared} {spendable : Spendable} (h : recheckSpendable p spendable = .ok ()) :
    ∃ units, spendable = .known units ∧ p.totalUnits ≤ units := by
  unfold recheckSpendable at h
  obtain ⟨units, hc, he⟩ := Guard.bind_eq_ok.mp h
  rw [Guard.ensure_eq_ok] at he
  refine ⟨units, ?_, he⟩
  cases spendable with
  | pending => simp [Spendable.ceiling] at hc
  | unavailable => simp [Spendable.ceiling] at hc
  | known u =>
    simp only [Spendable.ceiling, Except.ok.injEq] at hc
    rw [hc]

theorem ceilingFromFetch_known {r : AddressResult} {units : ℤ} (h : ceilingFromFetch r = some (.known units)) :
    ∃ state, r = .ok state ∧ state.spendableUnits = some units := by
  unfold ceilingFromFetch at h
  split at h
  · rename_i state
    split at h
    · rename_i u hu
      rw [Option.some.injEq, Spendable.known.injEq] at h
      exact ⟨state, rfl, h ▸ hu⟩
    · simp at h
  · simp at h

theorem noteCeiling_send (w : WalletState) (node : Text) (asked p : Prepared) (r : AddressResult) :
    (w.noteCeiling node asked p r).send = w.send := by
  unfold WalletState.noteCeiling
  split <;> rfl

theorem noteCeiling_signingSeed (w : WalletState) (node : Text) (asked p : Prepared) (r : AddressResult)
    (source : AddressSource) : (w.noteCeiling node asked p r).signingSeed E source = w.signingSeed E source := by
  unfold WalletState.noteCeiling
  split
  · rfl
  · cases source <;> rfl

theorem noteCeiling_client (w : WalletState) (node : Text) (asked p : Prepared) (r : AddressResult) :
    (w.noteCeiling node asked p r).client = w.client := by
  unfold WalletState.noteCeiling
  split <;> rfl

/-- The check of the sender's figures ends on the form again, or signs what was confirmed. -/
theorem sendSpendableChecked_cases {w : WalletState} {p : Prepared} (node : Text) (asked : Prepared)
    (r : AddressResult) (now : Option ℕ) (key : Text) (hst : w.send.stage = .checking p)
    (ho : w.send.outstanding = none) :
    let out := WalletState.sendSpendableChecked E node asked r now key w
    (out.1.send.stage = .compose ∧ out.1.send.outstanding = none ∧ out.2 = []) ∨
    ∃ state units timestamp seed,
      r = .ok state ∧ now = some timestamp ∧ state.spendableUnits = some units ∧ p.totalUnits ≤ units ∧
      w.signingSeed E p.senderSource = some seed ∧ addressForSeed E seed = p.sender ∧
      out.1.send.stage = .sending ∧
      out.1.send.outstanding =
        some (buildSubmission E key seed p.sender p.recipient p.amountUnits p.feeUnits timestamp) ∧
      out.2 = [.post w.client
        (buildSubmission E key seed p.sender p.recipient p.amountUnits p.feeUnits timestamp)] := by
  simp only [WalletState.sendSpendableChecked, hst, ho, Option.isSome_none]
  cases hc : ceilingFromFetch r with
  | none => exact .inl ⟨rfl, ho, rfl⟩
  | some spendable =>
    simp only [Bool.false_eq_true, if_false]
    have hback : (w.noteCeiling node asked p r).send.outstanding = none := by rw [noteCeiling_send, ho]
    split
    · rename_i timestamp seed hre hsign
      rw [noteCeiling_signingSeed] at hsign
      by_cases haddr : addressForSeed E seed = p.sender
      · obtain ⟨units, rfl, hle⟩ := recheckSpendable_ok hre
        obtain ⟨state, rfl, hunits⟩ := ceilingFromFetch_known hc
        refine .inr ⟨state, units, timestamp, seed, rfl, rfl, hunits, hle, hsign, haddr, ?_, ?_, ?_⟩
        · simp [haddr, WalletState.onSend]
        · simp [haddr, WalletState.onSend]
        · simp [haddr, WalletState.onSend, WalletState.submitOutstanding, noteCeiling_client]
      · rw [if_pos haddr]
        exact .inl ⟨rfl, hback, rfl⟩
    · exact .inl ⟨rfl, hback, rfl⟩

theorem step_ceiling {s : App} {i : ℕ} {node : Text} {p : Prepared} {r : AddressResult} {now : Option ℕ}
    {key : Text} (hs : SendInv s) (hj : s.jobs[i]? = some (.check node p)) :
    SendInv (deliver E s i (.ceiling r now key)) ∧
      PaymentStep E s (.answer i (.ceiling r now key)) (deliver E s i (.ceiling r now key)) := by
  have hm : .check node p ∈ sendJobs s := (mem_sendJobs rfl).mpr (List.mem_of_getElem? hj)
  obtain ⟨hpay, hjobs, hsum⟩ := SendOk.check hs hm
  obtain ⟨w, hw, hst, ho⟩ : ∃ w, s.wallet = some w ∧ w.send.stage = .checking p ∧ w.send.outstanding = none := by
    unfold payment at hpay
    obtain ⟨w, hw, h⟩ := Option.map_eq_some_iff.mp hpay
    rw [Prod.mk.injEq] at h
    exact ⟨w, hw, h⟩
  have hnone : outstanding s = none := by
    rw [outstanding_eq, hpay]
    rfl
  have hd : deliver E s i (.ceiling r now key) =
      (s.take i).onWallet (WalletState.sendSpendableChecked E node p r now key) := by
    simp only [deliver, hj, resume]
  have hw' : (s.take i).wallet = some w := hw
  have hp := payment_onWallet (f := WalletState.sendSpendableChecked E node p r now key) hw'
  have hj' := sendJobs_onWallet (f := WalletState.sendSpendableChecked E node p r now key) hw'
  rw [← hd] at hp hj'
  rw [sendJobs_erase hj rfl hjobs, List.nil_append] at hj'
  obtain ⟨h₁, h₂, h₃⟩ | ⟨state, units, timestamp, seed, hr, hnow, hu, hle, hseed, haddr, h₁, h₂, h₃⟩ :=
    sendSpendableChecked_cases (E := E) node p r now key hst ho
  · rw [h₁, h₂] at hp
    rw [h₃] at hj'
    have hinv : SendInv (deliver E s i (.ceiling r now key)) := by
      unfold SendInv
      rw [hp, hj']
      exact ⟨rfl, rfl⟩
    refine ⟨hinv, .quiet hs hinv ?_ fun node' q hm' => by simp [hj'] at hm'⟩
    rw [outstanding_eq, hp, hnone]
    rfl
  · rw [h₁, h₂] at hp
    rw [h₃] at hj'
    have hinv : SendInv (deliver E s i (.ceiling r now key)) := by
      unfold SendInv
      rw [hp, hj']
      exact ⟨_, _, rfl, rfl⟩
    refine ⟨hinv, .of_inv hs hinv ?_ ?_ ?_⟩
    · intro b hb
      simp [hnone] at hb
    · intro b hb _
      rw [outstanding_eq, hp] at hb
      subst hr hnow
      refine ⟨hnone, i, node, p, w, state, units, timestamp, key, seed, rfl, hj, hw, hst, hu, ?_, hseed, haddr, ?_⟩
      · rw [← show p.totalUnits = p.amountUnits + p.feeUnits from hsum]
        exact hle
      · exact (Option.some.inj hb).symm
    · intro node' q hm'
      rw [hj'] at hm'
      simp [Job.isSend] at hm'

/-- A job whose answer is of another kind waits on. -/
theorem step_waiting {s : App} {i : ℕ} {a : Answer} {j : Job} (hs : SendInv s) (hj : s.jobs[i]? = some j)
    (hd : deliver E s i a = (s.take i).start j) :
    SendInv (deliver E s i a) ∧ PaymentStep E s (.answer i a) (deliver E s i a) := by
  refine SameSend.step ⟨by rw [hd]; rfl, ?_⟩ hs
  rw [hd]
  exact filter_take_start hj (SendOk.length_le hs)

/-- An installed wallet has an empty send screen; the payment jobs in flight stay. -/
theorem installed_send {s : App} {i : ℕ} {r : Ready} (hj : s.jobs[i]? = some (.ready (some r)))
    (hu : E.validUrl r.nodeUrl = true) :
    payment (deliver E s i .done) = some (.compose, none) ∧ sendJobs (deliver E s i .done) = sendJobs s := by
  have hd : deliver E s i .done = (s.take i).setupReady E (some r) := by rw [deliver_some hj, resume]
  rw [hd]
  simp only [App.setupReady, hu, Bool.not_true, Bool.false_eq_true, if_false]
  constructor
  · rw [(SameSend.refreshAll _).payment]
    rfl
  · rw [(SameSend.refreshAll _).jobs]
    exact (SameSend.erase hj rfl).jobs

theorem sendInv_install {s : App} {i : ℕ} {r : Ready} (hj : s.jobs[i]? = some (.ready (some r)))
    (hu : E.validUrl r.nodeUrl = true) (hnil : sendJobs s = []) : SendInv (deliver E s i .done) := by
  obtain ⟨hp, hjobs⟩ := installed_send hj hu
  unfold SendInv
  rw [hp, hjobs, hnil]
  exact ⟨rfl, rfl⟩

theorem step_install {s : App} {i : ℕ} {r : Ready} (hs : SendInv s) (hj : s.jobs[i]? = some (.ready (some r)))
    (hu : E.validUrl r.nodeUrl = true) (hi : ∀ w ∈ s.wallet, w.send.inProgress = false) :
    SendInv (deliver E s i .done) ∧ PaymentStep E s (.answer i .done) (deliver E s i .done) := by
  have hnil := sendJobs_idle hs hi
  obtain ⟨hp, hjobs⟩ := installed_send hj hu
  refine step_idle hs hi (sendInv_install hj hu hnil) ?_ (hjobs.trans hnil)
  rw [outstanding_eq, hp]
  rfl

/-! ### Steps and runs -/

theorem step_message {s : App} (m : Message) (hs : SendInv s) :
    SendInv (update E s m) ∧ PaymentStep E s (.message m) (update E s m) := by
  by_cases hm : m.isPayment = true
  · cases m with
    | sendReview => exact step_sendReview hs
    | sendBackToCompose => exact step_sendBackToCompose hs
    | sendConfirm => exact step_sendConfirm hs
    | sendRetry => exact step_sendRetry hs
    | sendClear => exact step_sendClear hs
    | importContinue => exact step_importContinue hs
    | _ => simp [Message.isPayment] at hm
  · exact (update_same s (by simpa using hm)).step hs

theorem step_answer {s : App} (i : ℕ) (a : Answer) (hs : SendInv s)
    (hc : SparesPayment E s (.answer i a)) :
    SendInv (deliver E s i a) ∧ PaymentStep E s (.answer i a) (deliver E s i a) := by
  cases hj : s.jobs[i]? with
  | none =>
    rw [deliver_none hj]
    exact (SameSend.refl s).step hs
  | some j =>
    by_cases hk : j.isSend = true
    · by_cases ha : j.answeredBy a = true
      · cases j with
        | check node p =>
          cases a with
          | ceiling r now key => exact step_ceiling hs hj
          | _ => simp [Job.answeredBy] at ha
        | post node b =>
          cases a with
          | response r => exact step_response hs hj
          | _ => simp [Job.answeredBy] at ha
        | _ => simp [Job.isSend] at hk
      · refine step_waiting hs hj ?_
        rw [deliver_some hj]
        exact resume_waits _ (by simpa using ha)
    · rw [Bool.not_eq_true] at hk
      by_cases hr : ∃ r, j = .ready (some r) ∧ a = .done ∧ E.validUrl r.nodeUrl = true
      · obtain ⟨r, rfl, rfl, hu⟩ := hr
        exact step_install hs hj hu (hc (by simp [installs, hj, hu]))
      · refine SameSend.step ?_ hs
        rw [deliver_some hj]
        refine (SameSend.erase hj hk).trans (resume_same _ hk fun r hr' ha => ?_)
        by_contra hu
        exact hr ⟨r, hr', ha, by simpa using hu⟩

theorem step_payment {s t : App} {e : AppEvent} (hs : SendInv s) (hc : SparesPayment E s e)
    (h : AppStep E s e t) : SendInv t ∧ PaymentStep E s e t := by
  unfold AppStep at h
  subst h
  cases e with
  | message m => exact step_message m hs
  | answer i a => exact step_answer i a hs hc

/-- The send screen and its jobs stay in step when a wallet comes while no payment job is out. -/
theorem step_sendInv {s t : App} {e : AppEvent} (hs : SendInv s) (hc : (installs E s e).isSome = true → sendJobs s = [])
    (h : AppStep E s e t) : SendInv t := by
  by_cases hi : (installs E s e).isSome = true
  · obtain ⟨r, hr⟩ := Option.isSome_iff_exists.mp hi
    obtain ⟨i, rfl, hj, hu⟩ := installs_eq_some hr
    unfold AppStep at h
    subst h
    exact sendInv_install hj hu (hc hi)
  · exact (step_payment hs (fun h => absurd h hi) h).1

theorem sendInv_started {s : App} (h : s.Started) : SendInv s := by
  unfold SendInv payment sendJobs
  rw [h.1, h.2]
  exact rfl

/-- **Main result.** In every run in which no wallet is installed over one with a payment in
progress, no step drops a signed payment, signs a second one, or signs anything but what was
confirmed. -/
theorem payments_never_dropped_or_doubled {s₀ s t : App} {tr : List (App × AppEvent)} {e : AppEvent}
    (h₀ : s₀.Started) (run : Trace.Run (AppStep E) s₀ tr s) (hstep : AppStep E s e t)
    (hrun : ∀ p ∈ tr, SparesPayment E p.1 p.2) (hlast : SparesPayment E s e) : PaymentStep E s e t := by
  have hs : SendInv s :=
    run.invariant (I := SendInv) (fun _ _ _ hi hc hst => (step_payment hi hc hst).1) (sendInv_started h₀) hrun
  exact (step_payment hs hlast hstep).2

/-! ### A session -/

namespace Sample

instance (s : App) (e : AppEvent) : Decidable (SparesPayment env s e) :=
  inferInstanceAs (Decidable ((installs env s e).isSome = true → ∀ w ∈ s.wallet, w.send.inProgress = false))

def unlocked : List AppEvent := [.message .unlock, .answer 0 (.disk .done), .answer 0 .done]

/-- The passphrase is submitted a second time while the first unlock runs. -/
def unlockedTwice : List AppEvent :=
  [.message .unlock, .message .unlock, .answer 0 (.disk .done), .answer 0 (.disk .done), .answer 0 .done]

/-- One coin is sent; the job of each answer is at place `i`. -/
def sendOneCoin (i : ℕ) : List AppEvent :=
  [.answer i (.addresses [.ok figures]), .message (.show .send), .answer i (.fee (some ⟨1000, 1000⟩)),
    .message (.sendRecipientChanged (List.replicate 40 'b')), .message (.sendAmountChanged ['1']),
    .message .sendReview, .message .sendConfirm, .answer i (.ceiling (.ok figures) (some 1000) ['k'])]

def sent : Body :=
  buildSubmission env ['k'] [7, 0] (addressForIndex env [7] 0) (List.replicate 40 'b') 100000000 1000 1000

/-- The payment is signed and posted, and kept when its answer is lost. -/
theorem payment_survives_lost_answer :
    outstanding (play start (unlocked ++ sendOneCoin 0)) = some sent ∧
      PaymentStep env (play start (unlocked ++ sendOneCoin 0)) (.answer 0 (.response (.inr [])))
        (play start (unlocked ++ sendOneCoin 0 ++ [.answer 0 (.response (.inr []))])) := by
  refine ⟨by decide +kernel, ?_⟩
  exact payments_never_dropped_or_doubled ⟨rfl, rfl⟩ (run_play start (unlocked ++ sendOneCoin 0))
    (by simp [AppStep, play]) (by decide +kernel) (by decide +kernel)

/-- The second unlock lands while the payment is out, and the wallet it installs has forgotten it. -/
theorem second_unlock_drops_payment :
    ¬ ∀ (E : AppEnv) (s₀ s t : App) (tr : List (App × AppEvent)) (e : AppEvent), s₀.Started →
      Trace.Run (AppStep E) s₀ tr s → AppStep E s e t → PaymentStep E s e t := by
  intro h
  have hstep := h env start (play start (unlockedTwice ++ sendOneCoin 1)) _ _ (.answer 0 .done) ⟨rfl, rfl⟩
    (run_play start _) rfl
  have hsent : outstanding (play start (unlockedTwice ++ sendOneCoin 1)) = some sent := by decide +kernel
  rcases hstep.kept sent hsent with hkept | ⟨-, hforget⟩
  · have hgone : outstanding ((AppEvent.answer 0 .done).step env (play start (unlockedTwice ++ sendOneCoin 1))) =
        none := by decide +kernel
    rw [hgone] at hkept
    simp at hkept
  · rcases hforget with ⟨i, r, node, he, -⟩ | ⟨he, -⟩
    · simp at he
    · simp at he

end Sample

end Gui

end Alphanumeric
