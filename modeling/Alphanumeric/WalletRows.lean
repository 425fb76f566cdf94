/-
# Every row is the row of its key

A row of the wallet names where its key comes from, by index or by slot. Slots move when a
key is removed and move back when that was not written. Through all of it `signing_seed` of
a row's source is the key of the row's own address.

Key definitions: `Resolves`, `RowsOk`, `RowsResolve`.
Key theorems: `step_rows`.
-/
import Alphanumeric.AppFrames

namespace Alphanumeric

namespace Gui

variable {E : AppEnv}

variable (E) in
/-- The source leads to the key of the address. -/
def Resolves (w : WalletState) (source : AddressSource) (address : Text) : Prop :=
  (w.signingSeed E source).map (addressForSeed E) = some address

/-- The payment that is shown or being checked. -/
def SendStage.prepared : SendStage → Option Prepared
  | .confirm p => some p
  | .checking p => some p
  | _ => none

variable (E) in
structure RowsOk (w : WalletState) : Prop where
  rows : ∀ e ∈ w.addresses, Resolves E w e.source e.address
  checked : ∀ seed a, w.importKey = .checked seed a → (parseImportedSeed seed).map (addressForSeed E) = some a
  removing : ∀ r, w.removingKey = some r → Resolves E w (.imported r.slot) r.address
  prepared : ∀ p, w.send.stage.prepared = some p → Resolves E w p.senderSource p.sender

variable (E) in
def RowsResolve (s : App) : Prop := ∀ w ∈ s.wallet, RowsOk E w

/-- What a row is about, without its figures. -/
def AddressEntry.key (e : AddressEntry) : AddressSource × Text := (e.source, e.address)

theorem resolves_congr {w w' : WalletState} (hm : w'.master = w.master) (hi : w'.imported = w.imported)
    (source : AddressSource) (address : Text) : Resolves E w' source address ↔ Resolves E w source address := by
  unfold Resolves
  cases source <;> simp only [WalletState.signingSeed, hm, hi]

theorem resolves_derived (w : WalletState) (index : ℕ) :
    Resolves E w (.derived index) (addressForIndex E w.master index) := rfl

theorem resolves_imported {w : WalletState} {slot : ℕ} {a seed : Text} (hs : w.imported[slot]? = some seed) :
    Resolves E w (.imported slot) a ↔ (parseImportedSeed seed).map (addressForSeed E) = some a := by
  simp only [Resolves, WalletState.signingSeed, hs, Option.bind_some]

theorem Resolves.slot {w : WalletState} {slot : ℕ} {a : Text} (h : Resolves E w (.imported slot) a) :
    ∃ seed, w.imported[slot]? = some seed := by
  cases hs : w.imported[slot]? with
  | none => simp [Resolves, WalletState.signingSeed, hs] at h
  | some seed => exact ⟨seed, rfl⟩

/-- The same keys, panels and payment, and the same rows but for their figures. -/
theorem RowsOk.of_rows {w w' : WalletState} (h : RowsOk E w) (hm : w'.master = w.master)
    (hi : w'.imported = w.imported) (hk : w'.importKey = w.importKey) (hr : w'.removingKey = w.removingKey)
    (hrows : w'.addresses.map AddressEntry.key = w.addresses.map AddressEntry.key)
    (hp : ∀ p, w'.send.stage.prepared = some p → w.send.stage.prepared = some p) : RowsOk E w' where
  rows := by
    intro e he
    have hmem : e.key ∈ w.addresses.map AddressEntry.key := hrows ▸ List.mem_map_of_mem he
    obtain ⟨e₀, he₀, hkey⟩ := List.mem_map.mp hmem
    simp only [AddressEntry.key, Prod.mk.injEq] at hkey
    rw [← hkey.1, ← hkey.2, resolves_congr hm hi]
    exact h.rows e₀ he₀
  checked := hk ▸ h.checked
  removing := by
    intro r hr'
    rw [resolves_congr hm hi]
    exact h.removing r (hr ▸ hr')
  prepared := by
    intro p hp'
    rw [resolves_congr hm hi]
    exact h.prepared p (hp p hp')

theorem FormStep.rows {w w' : WalletState} (hf : FormStep E w w') (h : RowsOk E w) : RowsOk E w' := by
  have hm : w'.master = w.master := by
    have hc := congrArg WalletState.master hf.core
    exact hc
  have hi : w'.imported = w.imported := by
    have hc := congrArg WalletState.imported hf.core
    exact hc
  have hstage : w'.send.stage = w.send.stage := by
    have hc := congrArg (fun v : WalletState => v.send.stage) hf.core
    exact hc
  constructor
  · intro e he
    rw [resolves_congr hm hi]
    exact h.rows e (hf.addresses ▸ he)
  · intro seed a hc
    rcases hf.checked seed a hc with hc | hc
    · exact h.checked seed a hc
    · exact hc
  · intro r' hr'
    rw [resolves_congr hm hi]
    rcases hf.removing r' hr' with ⟨r, hr, hs, ha⟩ | ⟨e, he, hs, ha⟩
    · rw [← hs, ← ha]
      exact h.removing r hr
    · rw [← hs, ← ha]
      exact h.rows e he
  · intro p hp
    rw [resolves_congr hm hi]
    exact h.prepared p (hstage ▸ hp)

theorem Quiet.rows {s t : App} (hq : Quiet E s t) (h : RowsResolve E s) : RowsResolve E t := by
  intro w' hw'
  have hrel := hq.wallet
  rw [Option.mem_def.mp hw'] at hrel
  cases hw : s.wallet with
  | none =>
    rw [hw] at hrel
    cases hrel
  | some w =>
    rw [hw] at hrel
    cases hrel with
    | some hf => exact hf.rows (h w hw)

/-! ### Changes of one wallet -/

theorem RowsResolve.onWallet {s : App} {f : WalletState → WalletState × List Job} (h : RowsResolve E s)
    (hf : ∀ w, RowsOk E w → RowsOk E (f w).1) : RowsResolve E (s.onWallet f) := by
  unfold App.onWallet
  cases hw : s.wallet with
  | none => exact h
  | some w =>
    intro w' hw'
    simp only [Option.mem_some_iff] at hw'
    exact hw' ▸ hf w (h w hw)

theorem RowsResolve.edit {s : App} {f : WalletState → WalletState} (h : RowsResolve E s)
    (hf : ∀ w, RowsOk E w → RowsOk E (f w)) : RowsResolve E (s.edit f) := h.onWallet hf

theorem RowsResolve.refreshAll {s : App} (h : RowsResolve E s) : RowsResolve E s.refreshAll := by
  refine h.onWallet fun w hw => ?_
  unfold WalletState.refreshAll
  split
  · exact hw
  · refine hw.of_rows rfl rfl rfl rfl ?_ fun _ h => h
    simp [AddressEntry.key]

theorem RowsResolve.retarget {s : App} (h : RowsResolve E s) (url : Text) : RowsResolve E (s.retarget E url) := by
  intro w' hw'
  obtain ⟨w, hw, rfl⟩ := Option.map_eq_some_iff.mp (Option.mem_def.mp hw')
  split
  · exact (h w hw).of_rows rfl rfl rfl rfl rfl fun _ h => h
  · exact h w hw

theorem RowsResolve.startOwned {s : App} (h : RowsResolve E s) (owned : Option Text) :
    RowsResolve E (s.startOwned E owned) := by
  cases owned with
  | none => exact h
  | some url => exact h.retarget url

theorem applyAddressResult_key (o : Origin) (retry : Bool) (e : AddressEntry) (r : AddressResult) :
    (applyAddressResult o retry e r).key = e.key := by
  unfold applyAddressResult
  split
  · rfl
  · split <;> rfl

theorem map_key_modify {f : AddressEntry → AddressEntry} (hf : ∀ e, (f e).key = e.key) (l : List AddressEntry)
    (i : ℕ) : (l.modify i f).map AddressEntry.key = l.map AddressEntry.key := by
  refine List.ext_getElem? fun n => ?_
  rw [List.getElem?_map, List.getElem?_map, List.getElem?_modify]
  by_cases hn : i = n
  · cases l[n]? <;> simp [hn, hf]
  · simp [hn]

theorem map_key_zipResults (node client : Text) : ∀ (l : List AddressEntry) (rs : List (Text × AddressResult)),
    (WalletState.zipResults node client l rs).map AddressEntry.key = l.map AddressEntry.key
  | [], _ => by simp [WalletState.zipResults]
  | e :: l, [] => by simp [WalletState.zipResults]
  | e :: l, (asked, r) :: rs => by
    simp only [WalletState.zipResults, List.map_cons, applyAddressResult_key]
    rw [map_key_zipResults node client l rs]

theorem RowsOk.setActiveAddress {w : WalletState} (h : RowsOk E w) (position : ℕ) :
    RowsOk E (w.setActiveAddress position) := by
  unfold WalletState.setActiveAddress
  split
  · refine h.of_rows rfl rfl rfl rfl ?_ fun _ h => h
    exact map_key_modify (f := fun e => { e with loading := false }) (fun _ => rfl) _ _
  · exact h

theorem RowsOk.pollTickFetched {w : WalletState} (h : RowsOk E w) (stale : Bool) (node asked : Text)
    (r : AddressResult) : RowsOk E (w.pollTickFetched stale node asked r) := by
  unfold WalletState.pollTickFetched
  simp only
  split
  · exact h.of_rows rfl rfl rfl rfl rfl fun _ h => h
  · refine h.of_rows rfl rfl rfl rfl ?_ fun _ h => h
    exact map_key_modify (fun e => applyAddressResult_key _ _ e r) _ _

theorem RowsOk.refreshAllFetched {w : WalletState} (h : RowsOk E w) (stale : Bool) (node : Text)
    (rs : List (Text × AddressResult)) : RowsOk E (w.refreshAllFetched stale node rs) := by
  unfold WalletState.refreshAllFetched
  simp only
  split
  · refine h.of_rows rfl rfl rfl rfl ?_ fun _ h => h
    simp [AddressEntry.key]
  · refine h.of_rows rfl rfl rfl rfl ?_ fun _ h => h
    exact map_key_zipResults node w.client w.addresses rs

theorem RowsOk.noteCeiling {w : WalletState} (h : RowsOk E w) (node : Text) (asked p : Prepared)
    (r : AddressResult) : RowsOk E (w.noteCeiling node asked p r) := by
  unfold WalletState.noteCeiling
  split
  · exact h
  · refine h.of_rows rfl rfl rfl rfl ?_ fun _ h => h
    exact map_key_modify (fun e => applyAddressResult_key _ _ e r) _ _

/-- A stage that shows nothing to pay, or what the stage before showed. -/
theorem RowsOk.onSend {w : WalletState} (h : RowsOk E w) {f : SendState → SendState}
    (hf : ∀ p, (f w.send).stage.prepared = some p → w.send.stage.prepared = some p) : RowsOk E (w.onSend f) :=
  h.of_rows rfl rfl rfl rfl rfl hf

theorem RowsOk.backToForm {w : WalletState} (h : RowsOk E w) : RowsOk E w.backToForm :=
  h.onSend (by simp [SendStage.prepared])

theorem RowsOk.sendReview {w : WalletState} (h : RowsOk E w) : RowsOk E (w.sendReview E) := by
  unfold WalletState.sendReview
  split
  · split
    · exact h
    · rename_i entry hentry
      split
      · rename_i p hp
        refine ⟨h.rows, h.checked, h.removing, fun q hq => ?_⟩
        have hpq : p = q := by simpa [WalletState.onSend, SendStage.prepared] using hq
        subst hpq
        obtain ⟨ha, hs, -⟩ := preparePayment_ok hp
        rw [hs, ha]
        exact h.rows entry (List.mem_of_getElem? hentry)
      · exact h
  · exact h

theorem RowsOk.sendBackToCompose {w : WalletState} (h : RowsOk E w) : RowsOk E w.sendBackToCompose := by
  unfold WalletState.sendBackToCompose
  split
  · exact h.backToForm
  · exact h

theorem RowsOk.sendConfirm {w : WalletState} (h : RowsOk E w) : RowsOk E w.sendConfirm.1 := by
  unfold WalletState.sendConfirm
  split
  · exact h
  · split
    · rename_i p hp
      refine h.of_rows rfl rfl rfl rfl rfl ?_
      simp [WalletState.onSend, SendStage.prepared, hp]
    · exact h

theorem RowsOk.sendRetry {w : WalletState} (h : RowsOk E w) : RowsOk E w.sendRetry.1 := by
  unfold WalletState.sendRetry
  split
  · exact h
  · refine h.of_rows rfl rfl rfl rfl rfl ?_
    simp [WalletState.onSend, SendStage.prepared]

theorem RowsOk.sendClear {w : WalletState} (h : RowsOk E w) : RowsOk E w.sendClear := by
  unfold WalletState.sendClear
  split
  · exact h
  · exact h
  · refine h.onSend fun p hp => ?_
    split at hp <;> simp [SendStage.prepared, SendState.reset, SendState.returnToForm] at hp
  · exact h.onSend (by simp [SendStage.prepared, SendState.reset, SendState.returnToForm])

theorem RowsOk.sendSubmitted {w : WalletState} (h : RowsOk E w) (v : Verdict) : RowsOk E (w.sendSubmitted v) :=
  h.onSend (by simp [SendStage.prepared])

theorem RowsOk.sendSpendableChecked {w : WalletState} (h : RowsOk E w) (node : Text) (asked : Prepared)
    (r : AddressResult) (now : Option ℕ) (key : Text) :
    RowsOk E (w.sendSpendableChecked E node asked r now key).1 := by
  unfold WalletState.sendSpendableChecked
  split
  · rename_i p hp
    have hnote := h.noteCeiling node asked p r
    split
    · exact h
    · split
      · exact h.backToForm
      · simp only
        split
        · split
          · exact hnote.backToForm
          · refine hnote.of_rows rfl rfl rfl rfl rfl ?_
            simp [WalletState.onSend, SendStage.prepared]
        · exact hnote.backToForm
  · exact h

theorem RowsOk.addressStoreSaved {w : WalletState} (h : RowsOk E w) (next : Option ℕ) :
    RowsOk E (w.addressStoreSaved E next) := by
  have hcongr : ∀ source a, Resolves E (w.addressStoreSaved E next) source a ↔ Resolves E w source a := by
    intro source a
    refine resolves_congr ?_ ?_ source a
    · cases next <;> rfl
    · cases next <;> rfl
  cases next with
  | none => exact h.of_rows rfl rfl rfl rfl rfl fun _ h => h
  | some next =>
    refine ⟨fun e he => ?_, h.checked, fun r hr => ?_, fun p hp => ?_⟩
    · rw [hcongr]
      rcases List.mem_append.mp he with he | he
      · exact h.rows e he
      · rw [List.mem_singleton.mp he]
        exact resolves_derived w w.nextIndex
    · rw [hcongr]
      exact h.removing r hr
    · rw [hcongr]
      exact h.prepared p hp

/-! ### Keys that come and go -/

theorem Resolves.append {w w' : WalletState} {source : AddressSource} {a : Text} (h : Resolves E w source a)
    (hm : w'.master = w.master) {l : List Text} (hi : w'.imported = w.imported ++ l) :
    Resolves E w' source a := by
  cases source with
  | derived index =>
    unfold Resolves at h ⊢
    rw [← h]
    simp only [WalletState.signingSeed, hm]
  | imported slot =>
    obtain ⟨seed, hs⟩ := h.slot
    have hlt : slot < w.imported.length := (List.getElem?_eq_some_iff.mp hs).1
    have hs' : w'.imported[slot]? = some seed := by rw [hi, List.getElem?_append_left hlt, hs]
    rw [resolves_imported hs] at h
    rwa [resolves_imported hs']

theorem prepared_of_unblocked {w : WalletState} (h : w.keyChangeBlocked = false) :
    w.send.stage.prepared = none := by
  unfold WalletState.keyChangeBlocked at h
  cases hst : w.send.stage with
  | confirm p => simp [hst] at h
  | checking p => simp [hst] at h
  | _ => rfl

theorem RowsOk.addKey {w : WalletState} (h : RowsOk E w) {seed address : Text}
    (hc : w.importKey = .checked seed address) : RowsOk E { w.addKey seed address with importKey := .idle } := by
  have happ : ∀ source a, Resolves E w source a →
      Resolves E { w.addKey seed address with importKey := .idle } source a :=
    fun source a hr => hr.append (l := [seed]) rfl rfl
  refine ⟨fun e he => ?_, by simp, fun r hr => happ _ _ (h.removing r hr), fun p hp => happ _ _ (h.prepared p hp)⟩
  rcases List.mem_append.mp he with he | he
  · exact happ _ _ (h.rows e he)
  · rw [List.mem_singleton.mp he]
    have hs : (w.imported ++ [seed])[w.imported.length]? = some seed := by simp
    exact (resolves_imported hs).mpr (h.checked seed address hc)

theorem Resolves.closeSlot {w : WalletState} {slot : ℕ} {e : AddressEntry} (h : Resolves E w e.source e.address)
    (hne : e.source ≠ .imported slot) :
    Resolves E (w.dropKey slot) (WalletState.closeSlot slot e).source (WalletState.closeSlot slot e).address := by
  unfold WalletState.closeSlot
  cases hsrc : e.source with
  | derived index =>
    rw [hsrc] at h
    simp only [hsrc]
    exact h
  | imported position =>
    rw [hsrc] at h hne
    obtain ⟨seed, hs⟩ := h.slot
    rw [resolves_imported hs] at h
    simp only
    have hne' : position ≠ slot := fun he => hne (he ▸ rfl)
    by_cases hlt : slot < position
    · rw [if_pos hlt]
      have hs' : (w.imported.eraseIdx slot)[position - 1]? = some seed := by
        rw [List.getElem?_eraseIdx, if_neg (by omega), Nat.sub_add_cancel (by omega), hs]
      exact (resolves_imported hs').mpr h
    · rw [if_neg hlt]
      have hs' : (w.imported.eraseIdx slot)[position]? = some seed := by
        rw [List.getElem?_eraseIdx, if_pos (by omega), hs]
      rw [hsrc]
      exact (resolves_imported hs').mpr h

theorem RowsOk.dropKey {w : WalletState} (h : RowsOk E w) (slot : ℕ) (hb : w.keyChangeBlocked = false) :
    RowsOk E { w.dropKey slot with removingKey := none } := by
  refine ⟨fun e he => ?_, h.checked, by simp, fun p hp => ?_⟩
  · obtain ⟨e₀, he₀, rfl⟩ := List.mem_map.mp he
    rw [List.mem_filter, decide_eq_true_eq] at he₀
    have hr := (h.rows e₀ he₀.1).closeSlot he₀.2
    exact (resolves_congr rfl rfl _ _).mp hr
  · have hnone : (w.dropKey slot).send.stage.prepared = none := prepared_of_unblocked hb
    simp [hnone] at hp

theorem openSlot_closeSlot {slot : ℕ} {e : AddressEntry} (hne : e.source ≠ .imported slot) :
    (WalletState.openSlot slot (WalletState.closeSlot slot e)).key = e.key := by
  cases hsrc : e.source with
  | derived index => simp [WalletState.openSlot, WalletState.closeSlot, hsrc]
  | imported position =>
    have hne' : position ≠ slot := fun he => hne (he ▸ hsrc)
    by_cases hlt : slot < position
    · have hle : slot ≤ position - 1 := by omega
      have hadd : position - 1 + 1 = position := by omega
      simp [WalletState.openSlot, WalletState.closeSlot, AddressEntry.key, hsrc, hlt, hle, hadd]
    · have hle : ¬ slot ≤ position := by omega
      simp [WalletState.openSlot, WalletState.closeSlot, hsrc, hlt, hle]

/-- A removal that was not written leaves every row with its key, the removed one last. -/
theorem RowsOk.restoreKey {w : WalletState} (h : RowsOk E w) {r : RemoveKey} {seed : Text}
    (hr : w.removingKey = some r) (hs : w.imported[r.slot]? = some seed) :
    RowsOk E ((w.dropKey r.slot).restoreKey r.slot seed r.address) := by
  obtain ⟨hlt, hseed⟩ := List.getElem?_eq_some_iff.mp hs
  have himp : ((w.dropKey r.slot).restoreKey r.slot seed r.address).imported = w.imported := by
    show (w.imported.eraseIdx r.slot).insertIdx r.slot seed = w.imported
    rw [← hseed]
    exact List.insertIdx_eraseIdx_getElem hlt
  have hcongr : ∀ source a, Resolves E ((w.dropKey r.slot).restoreKey r.slot seed r.address) source a ↔
      Resolves E w source a := resolves_congr rfl himp
  refine ⟨fun e he => ?_, h.checked, fun r' hr' => ?_, fun p hp => ?_⟩
  · rw [hcongr]
    rcases List.mem_append.mp he with he | he
    · obtain ⟨e₁, he₁, rfl⟩ := List.mem_map.mp he
      obtain ⟨e₀, he₀, rfl⟩ := List.mem_map.mp he₁
      rw [List.mem_filter, decide_eq_true_eq] at he₀
      have hkey := openSlot_closeSlot he₀.2
      simp only [AddressEntry.key, Prod.mk.injEq] at hkey
      rw [hkey.1, hkey.2]
      exact h.rows e₀ he₀.1
    · rw [List.mem_singleton.mp he]
      exact h.removing r hr
  · rw [hcongr]
    exact h.removing r' hr'
  · rw [hcongr]
    exact h.prepared p hp

theorem rowsOk_openWallet (r : Ready) : RowsOk E (App.openWallet E r) := by
  refine ⟨fun e he => ?_, by simp [App.openWallet], by simp [App.openWallet], ?_⟩
  · rcases List.mem_append.mp he with he | he
    · obtain ⟨i, -, rfl⟩ := List.mem_map.mp he
      exact resolves_derived _ i
    · obtain ⟨⟨seed, slot⟩, hmem, he⟩ := List.mem_filterMap.mp he
      obtain ⟨parsed, hparsed, rfl⟩ := Option.map_eq_some_iff.mp he
      have hs : r.imported[slot]? = some seed := List.mk_mem_zipIdx_iff_getElem?.mp hmem
      refine (resolves_imported hs).mpr ?_
      rw [hparsed]
      rfl
  · simp [App.openWallet, SendState.new, SendStage.prepared]

/-! ### Steps -/

theorem RowsResolve.of_wallet {s t : App} (h : RowsResolve E s) (hw : t.wallet = s.wallet) : RowsResolve E t :=
  fun w hmem => h w (hw ▸ hmem)

theorem RowsResolve.of_some {s : App} {w : WalletState} (hw : s.wallet = some w) (h : RowsOk E w) :
    RowsResolve E s := by
  intro w' hw'
  rw [hw, Option.mem_some_iff] at hw'
  exact hw' ▸ h

theorem RowsResolve.importKeyAdd {s : App} (h : RowsResolve E s) (saved : DiskOutcome) :
    RowsResolve E (s.importKeyAdd saved) := by
  unfold App.importKeyAdd
  cases hw : s.wallet with
  | none => exact h
  | some w =>
    have hok := h w hw
    -- Back to asking: nothing stands checked any more.
    have hask : ∀ seed, RowsOk E { w with importKey := .asking seed } :=
      fun seed => ⟨hok.rows, by simp, hok.removing, hok.prepared⟩
    simp only
    split
    · exact .of_some rfl (hask _)
    · rename_i seed address hc _
      split
      · exact RowsResolve.refreshAll (.of_some rfl (hok.addKey hc))
      · exact .of_some rfl (hask _)
    · exact h

theorem RowsResolve.removeKeyConfirm {s : App} (h : RowsResolve E s) (saved : DiskOutcome) :
    RowsResolve E (s.removeKeyConfirm saved) := by
  unfold App.removeKeyConfirm
  cases hw : s.wallet with
  | none => exact h
  | some w =>
    have hok := h w hw
    simp only
    split
    · rename_i removing hr hb
      split
      · exact h
      · split
        · exact h
        · rename_i seed hs
          split
          · exact .of_some rfl (hok.dropKey removing.slot hb)
          · exact .of_some rfl (hok.restoreKey hr hs)
    · exact h

theorem RowsResolve.update {s : App} (h : RowsResolve E s) (m : Message) : RowsResolve E (update E s m) := by
  by_cases hf : m.isForm = true
  · exact (update_quiet s hf).rows h
  cases m with
  | «show» screen =>
    have hw : screen = .wallet := by simpa [Message.isForm] using hf
    subst hw
    simp only [Gui.update]
    unfold App.showScreen
    split
    · exact h
    · exact ((Quiet.closePanels s).rows h).refreshAll
  | nodeUrlChanged url => exact h.retarget url
  | retryNode url => exact (Quiet.showScreen _ (by decide)).rows (h.retarget url)
  | startCreate master owned => exact (h.startOwned owned).of_wallet rfl
  | startRestore owned => exact (h.startOwned owned).of_wallet rfl
  | startImportFile owned => exact (h.startOwned owned).of_wallet rfl
  | importContinue =>
    simp only [Gui.update]
    unfold App.importContinue
    split
    · exact h
    · split
      · exact h
      · intro w hw
        simp at hw
  | pollTick =>
    refine h.onWallet fun w hw => ?_
    unfold WalletState.pollTick
    split
    · exact hw
    · split
      · exact hw
      · exact hw.of_rows rfl rfl rfl rfl rfl fun _ h => h
  | refreshAll => exact h.refreshAll
  | setActiveAddress position => exact h.edit fun w hw => hw.setActiveAddress position
  | addAddress =>
    refine h.onWallet fun w hw => ?_
    unfold WalletState.addAddress
    split
    · exact hw
    · exact hw.of_rows rfl rfl rfl rfl rfl fun _ h => h
  | importKeyAdd saved => exact h.importKeyAdd saved
  | removeKeyConfirm saved => exact h.removeKeyConfirm saved
  | sendReview => exact h.edit fun w hw => hw.sendReview
  | sendBackToCompose => exact h.edit fun w hw => hw.sendBackToCompose
  | sendConfirm => exact h.onWallet fun w hw => hw.sendConfirm
  | sendRetry => exact h.onWallet fun w hw => hw.sendRetry
  | sendClear => exact h.edit fun w hw => hw.sendClear
  | _ => simp [Message.isForm] at hf

theorem RowsResolve.setupReady {s : App} (h : RowsResolve E s) (r : Option Ready) :
    RowsResolve E (s.setupReady E r) := by
  unfold App.setupReady
  split
  · exact h.of_wallet rfl
  · split
    · exact h.of_wallet rfl
    · exact RowsResolve.refreshAll (.of_some rfl (rowsOk_openWallet _))

theorem RowsResolve.resume {s : App} (h : RowsResolve E s) (j : Job) (a : Answer) :
    RowsResolve E (resume E s j a) := by
  by_cases ha : j.answeredBy a = true
  · cases j with
    | poll epoch node asked =>
      cases a with
      | address r => exact h.edit fun w hw => hw.pollTickFetched _ node asked r
      | _ => simp [Job.answeredBy] at ha
    | refresh epoch node asked =>
      cases a with
      | addresses rs => exact h.edit fun w hw => hw.refreshAllFetched _ node _
      | _ => simp [Job.answeredBy] at ha
    | check node p =>
      cases a with
      | ceiling r now key => exact h.onWallet fun w hw => hw.sendSpendableChecked node p r now key
      | _ => simp [Job.answeredBy] at ha
    | post node b =>
      cases a with
      | response r => exact h.edit fun w hw => hw.sendSubmitted _
      | _ => simp [Job.answeredBy] at ha
    | save f =>
      cases a with
      | disk o => exact h.of_wallet rfl
      | _ => simp [Job.answeredBy] at ha
    | saved next =>
      cases a with
      | done =>
        have hsaved := h.edit (fun w hw => hw.addressStoreSaved next)
        simp only [Gui.resume]
        split
        · exact hsaved.refreshAll
        · exact hsaved
      | _ => simp [Job.answeredBy] at ha
    | create master restored passphrase nodeUrl =>
      cases a with
      | scan found o =>
        simp only [Gui.resume]
        split <;> exact h.of_wallet rfl
      | _ => simp [Job.answeredBy] at ha
    | useFile f nodeUrl =>
      cases a with
      | disk o => exact h.of_wallet rfl
      | _ => simp [Job.answeredBy] at ha
    | ready r =>
      cases a with
      | done => exact h.setupReady r
      | _ => simp [Job.answeredBy] at ha
    | _ => exact (resume_quiet s rfl (by simp)).rows h
  · rw [resume_waits s (by simpa using ha)]
    exact h.of_wallet rfl

/-- Every step keeps every row with its key. -/
theorem step_rows {s t : App} {e : AppEvent} (h : RowsResolve E s) (hstep : AppStep E s e t) :
    RowsResolve E t := by
  unfold AppStep at hstep
  subst hstep
  cases e with
  | message m => exact h.update m
  | answer i a =>
    show RowsResolve E (deliver E s i a)
    cases hj : s.jobs[i]? with
    | none =>
      rw [deliver_none hj]
      exact h
    | some j =>
      rw [deliver_some hj]
      exact RowsResolve.resume (s := s.take i) h j a

end Gui

end Alphanumeric
