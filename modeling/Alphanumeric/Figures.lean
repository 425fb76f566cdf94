/-
# Figures and the rows they stand in

A poll asks for the active row and its answer goes to whichever row is active when it lands;
a refresh asks for all rows and its answers are matched by position; the check before a
payment goes to the row of the sender, whatever node the wallet reads by then. The figures
are right as long as no row moves, and no node changes, under a question that is still out.

Key definitions: `AddressEntry.Belongs`, `Asked`, `spoils`, `KeepsFigures`.
Key theorems: `step_figures`, `figures_belong_to_their_row`.
-/
import Alphanumeric.WalletRows
import Alphanumeric.Payments

namespace Alphanumeric

namespace Gui

variable {E : AppEnv}

/-! ### What the figures of a row are -/

def AddressEntry.HasFigures (e : AddressEntry) : Prop :=
  e.balanceUnits.isSome = true ∨ e.spendable ≠ .pending ∨ e.recent.isSome = true

/-- What the row shows is the answer to a question about its own address, asked of the node the
wallet read when the answer was applied. -/
def AddressEntry.Belongs (e : AddressEntry) : Prop :=
  e.HasFigures → ∃ o, e.origin = some o ∧ o.asked = e.address ∧ o.node = o.client

def AllBelong (rows : List AddressEntry) : Prop := ∀ e ∈ rows, e.Belongs

def FiguresBelong (s : App) : Prop := ∀ w ∈ s.wallet, AllBelong w.addresses

theorem belongs_new (source : AddressSource) (address : Text) : (AddressEntry.new source address).Belongs := by
  intro h
  simp [AddressEntry.HasFigures, AddressEntry.new] at h

/-- Only the answer to a question about the row's own address is applied to it. -/
theorem AddressEntry.Belongs.apply {e : AddressEntry} (h : e.Belongs) {o : Origin} (retry : Bool)
    (r : AddressResult) (ho : o.asked = e.address ∧ o.node = o.client) :
    (applyAddressResult o retry e r).Belongs := by
  unfold applyAddressResult
  split
  · exact fun _ => ⟨o, rfl, ho⟩
  · split
    · exact h
    · exact h

theorem AllBelong.map {rows : List AddressEntry} (h : AllBelong rows) {f : AddressEntry → AddressEntry}
    (hf : ∀ e, e.Belongs → (f e).Belongs) : AllBelong (rows.map f) := by
  intro e he
  obtain ⟨e₀, he₀, rfl⟩ := List.mem_map.mp he
  exact hf e₀ (h e₀ he₀)

theorem AllBelong.append_new {rows : List AddressEntry} (h : AllBelong rows) (source : AddressSource)
    (address : Text) : AllBelong (rows ++ [AddressEntry.new source address]) := by
  intro e he
  rcases List.mem_append.mp he with he | he
  · exact h e he
  · rw [List.mem_singleton.mp he]
    exact belongs_new source address

/-- One row changes. -/
theorem AllBelong.modify {rows : List AddressEntry} (h : AllBelong rows) {i : ℕ} {f : AddressEntry → AddressEntry}
    (hf : ∀ e, rows[i]? = some e → e.Belongs → (f e).Belongs) : AllBelong (rows.modify i f) := by
  intro e he
  obtain ⟨n, hn⟩ := List.mem_iff_getElem?.mp he
  rw [List.getElem?_modify] at hn
  by_cases hi : i = n
  · subst hi
    obtain ⟨e₀, he₀, rfl⟩ := Option.map_eq_some_iff.mp (by simpa using hn)
    exact hf e₀ he₀ (h e₀ (List.mem_of_getElem? he₀))
  · have hn' : rows[n]? = some e := by simpa [hi] using hn
    exact h e (List.mem_of_getElem? hn')

theorem AllBelong.zipResults {node client : Text} (hn : node = client) :
    ∀ {rows : List AddressEntry} {asked : List Text} {rs : List AddressResult}, AllBelong rows →
      asked <+: rows.map (·.address) → AllBelong (WalletState.zipResults node client rows (asked.zip rs))
  | [], _, _, h, _ => by simpa [WalletState.zipResults] using h
  | e :: rows, [], _, h, _ => by simpa [WalletState.zipResults] using h
  | e :: rows, a :: asked, [], h, _ => by simpa [WalletState.zipResults] using h
  | e :: rows, a :: asked, r :: rs, h, hp => by
    rw [List.map_cons, List.cons_prefix_cons] at hp
    rw [AllBelong, List.forall_mem_cons] at h
    simp only [List.zip_cons_cons, WalletState.zipResults]
    rw [AllBelong, List.forall_mem_cons]
    exact ⟨h.1.apply false r ⟨hp.1, hn⟩, AllBelong.zipResults hn h.2 hp.2⟩

theorem map_address_of_key {l l' : List AddressEntry} (h : l'.map AddressEntry.key = l.map AddressEntry.key) :
    l'.map (·.address) = l.map (·.address) := by
  have hmap := congrArg (List.map Prod.snd) h
  rw [List.map_map, List.map_map] at hmap
  exact hmap

/-! ### What a question in flight knows -/

/-- The node, the active row and the addresses of the rows. -/
structure View where
  client : Text
  active : ℕ
  addresses : List Text

def viewOf (w : WalletState) : View := ⟨w.client, w.active, w.addresses.map (·.address)⟩

/-- A poll of the present epoch asked for the row that is active, a refresh for the rows that
come first, and a check the node the wallet reads. -/
def Asked (v : Option View) (epoch : ℕ) : Job → Prop
  | .poll e node address => e ≤ epoch ∧ (e = epoch → ∃ u ∈ v, node = u.client ∧ u.addresses[u.active]? = some address)
  | .refresh e node addresses => e ≤ epoch ∧ (e = epoch → ∃ u ∈ v, node = u.client ∧ addresses <+: u.addresses)
  | .check node _ => ∀ u ∈ v, node = u.client
  | _ => True

def Job.isFigure : Job → Bool
  | .poll _ _ _ => true
  | .refresh _ _ _ => true
  | .check _ _ => true
  | _ => false

theorem asked_other {v : Option View} {epoch : ℕ} {j : Job} (h : j.isFigure = false) : Asked v epoch j := by
  cases j <;> trivial

/-- Rows may be added at the end. -/
theorem Asked.mono {u u' : View} {epoch : ℕ} {j : Job} (h : Asked (some u) epoch j) (hc : u'.client = u.client)
    (ha : u'.active = u.active) (hr : u.addresses <+: u'.addresses) : Asked (some u') epoch j := by
  cases j with
  | poll e node address =>
    refine ⟨h.1, fun he => ⟨u', rfl, ?_⟩⟩
    obtain ⟨v, hv, hn, hrow⟩ := h.2 he
    rw [Option.mem_some_iff] at hv
    subst hv
    obtain ⟨more, hmore⟩ := hr
    refine ⟨hn.trans hc.symm, ?_⟩
    rw [ha, ← hmore, List.getElem?_append_left (List.getElem?_eq_some_iff.mp hrow).1, hrow]
  | refresh e node addresses =>
    refine ⟨h.1, fun he => ⟨u', rfl, ?_⟩⟩
    obtain ⟨v, hv, hn, hpre⟩ := h.2 he
    rw [Option.mem_some_iff] at hv
    subst hv
    exact ⟨hn.trans hc.symm, hpre.trans hr⟩
  | check node p =>
    intro v hv
    rw [Option.mem_some_iff] at hv
    subst hv
    exact (h u rfl).trans hc.symm
  | _ => trivial

/-- A question of an earlier epoch knows nothing, and need not. -/
theorem Asked.outdate {v v' : Option View} {epoch epoch' : ℕ} {j : Job} (h : Asked v epoch j)
    (he : epoch < epoch') (hcheck : ∀ node p, j = .check node p → ∀ u ∈ v', node = u.client) :
    Asked v' epoch' j := by
  cases j with
  | poll e node address => exact ⟨h.1.trans he.le, fun heq => absurd h.1 (by omega)⟩
  | refresh e node addresses => exact ⟨h.1.trans he.le, fun heq => absurd h.1 (by omega)⟩
  | check node p => exact hcheck node p rfl
  | _ => trivial

/-- A change of the wallet that keeps its node and the order of its rows, and the jobs it starts. -/
structure FigChange (epoch : ℕ) (w : WalletState) (out : WalletState × List Job) : Prop where
  rows : AllBelong w.addresses → AllBelong out.1.addresses
  client : out.1.client = w.client
  active : out.1.active = w.active
  order : w.addresses.map (·.address) <+: out.1.addresses.map (·.address)
  jobs : ∀ j ∈ out.2, Asked (some (viewOf out.1)) epoch j

theorem FigChange.same {epoch : ℕ} {w : WalletState} {out : WalletState × List Job}
    (hr : out.1.addresses = w.addresses) (hc : out.1.client = w.client) (ha : out.1.active = w.active)
    (hj : ∀ j ∈ out.2, j.isFigure = false) : FigChange epoch w out :=
  ⟨fun h => hr ▸ h, hc, ha, hr ▸ List.prefix_rfl, fun j h => asked_other (hj j h)⟩

theorem FigChange.refl {epoch : ℕ} (w : WalletState) : FigChange epoch w (w, []) := .same rfl rfl rfl (by simp)

structure Figs (s : App) : Prop where
  belong : FiguresBelong s
  asked : ∀ j ∈ s.jobs, Asked (s.wallet.map viewOf) s.nodeEpoch j

namespace Figs

theorem of_quiet {s t : App} (hq : Quiet E s t) (h : Figs s) : Figs t := by
  have hrows : t.wallet.map (·.addresses) = s.wallet.map (·.addresses) := hq.map_wallet fun _ => rfl
  have hview : t.wallet.map viewOf = s.wallet.map viewOf := hq.map_wallet fun _ => rfl
  constructor
  · intro w hw
    have hmem : w.addresses ∈ t.wallet.map (·.addresses) := Option.mem_map_of_mem _ hw
    rw [hrows] at hmem
    obtain ⟨w₀, hw₀, he⟩ := Option.map_eq_some_iff.mp hmem
    exact he ▸ h.belong w₀ hw₀
  · intro j hj
    rw [hview, hq.epoch]
    by_cases hfig : j.isFigure = true
    · have htr : j.isTracked = true := by
        cases j <;> first | rfl | simp [Job.isFigure] at hfig
      have hmem : j ∈ tracked t := List.mem_filter.mpr ⟨hj, htr⟩
      rw [hq.jobs] at hmem
      exact h.asked j (List.mem_filter.mp hmem).1
    · exact asked_other (by simpa using hfig)

theorem onWallet {s : App} {f : WalletState → WalletState × List Job} (h : Figs s)
    (hf : ∀ w, s.wallet = some w → FigChange s.nodeEpoch w (f w)) : Figs (s.onWallet f) := by
  unfold App.onWallet
  cases hw : s.wallet with
  | none => exact h
  | some w =>
    have hch := hf w hw
    constructor
    · intro w' hw'
      rw [Option.mem_some_iff] at hw'
      exact hw' ▸ hch.rows (h.belong w hw)
    · intro j hmem
      rcases List.mem_append.mp hmem with hmem | hmem
      · have hasked := h.asked j hmem
        rw [hw] at hasked
        exact hasked.mono hch.client hch.active hch.order
      · exact hch.jobs j hmem

theorem edit {s : App} {f : WalletState → WalletState} (h : Figs s)
    (hf : ∀ w, s.wallet = some w → FigChange s.nodeEpoch w (f w, [])) : Figs (s.edit f) := h.onWallet hf

theorem start {s : App} (h : Figs s) {j : Job} (hj : j.isFigure = false) : Figs (s.start j) := by
  refine ⟨h.belong, fun k hk => ?_⟩
  rcases List.mem_append.mp hk with hk | hk
  · exact h.asked k hk
  · rw [List.mem_singleton.mp hk]
    exact asked_other hj

theorem take {s : App} (h : Figs s) (i : ℕ) : Figs (s.take i) :=
  ⟨h.belong, fun j hj => h.asked j (List.mem_of_mem_eraseIdx hj)⟩

theorem refreshAll {s : App} (h : Figs s) : Figs s.refreshAll := by
  refine h.onWallet fun w _ => ?_
  unfold WalletState.refreshAll
  split
  · exact .refl w
  · have hmap : (w.addresses.map fun e => { e with loading := true }).map (·.address) =
        w.addresses.map (·.address) := by
      rw [List.map_map]
      rfl
    refine ⟨fun hb => hb.map fun _ hb => hb, rfl, rfl, hmap ▸ List.prefix_rfl, fun j hj => ?_⟩
    rw [List.mem_singleton] at hj
    subst hj
    exact ⟨le_rfl, fun _ => ⟨_, rfl, rfl, hmap ▸ List.prefix_rfl⟩⟩

end Figs

/-! ### What may happen under a question -/

/-- The node a message turns the wallet to. -/
def Message.retargets : Message → Option Text
  | .nodeUrlChanged url => some url
  | .retryNode url => some url
  | .startCreate _ owned => owned
  | .startRestore owned => owned
  | .startImportFile owned => owned
  | _ => none

/-- The removal that is confirmed goes through. -/
def WalletState.removes (w : WalletState) : Bool :=
  match w.removingKey with
  | some r => !w.keyChangeBlocked && decide (trim r.typed = r.address)
  | none => false

variable (E) in
/-- The event takes the ground from under a question that is still out: the poll's row stops
being the active one, the rows move, the node changes under a check, or another wallet comes. -/
def spoils (s : App) (e : AppEvent) (j : Job) : Bool :=
  match e, j with
  | .message (.setActiveAddress position), .poll epoch _ _ =>
    decide (epoch = s.nodeEpoch) && s.wallet.any fun w => decide (position < w.addresses.length ∧ position ≠ w.active)
  | .message (.removeKeyConfirm _), .poll epoch _ _ => decide (epoch = s.nodeEpoch) && s.wallet.any (·.removes)
  | .message (.removeKeyConfirm _), .refresh epoch _ _ => decide (epoch = s.nodeEpoch) && s.wallet.any (·.removes)
  | .message m, .check node _ => m.retargets.any fun url => E.validUrl url && decide (url ≠ node)
  | .answer i a, .poll epoch _ _ => decide (epoch = s.nodeEpoch) && (installs E s (.answer i a)).isSome
  | .answer i a, .refresh epoch _ _ => decide (epoch = s.nodeEpoch) && (installs E s (.answer i a)).isSome
  | .answer i a, .check _ _ => (installs E s (.answer i a)).isSome
  | .answer i a, .post _ _ => (installs E s (.answer i a)).isSome
  | _, _ => false

theorem spoils_check (s : App) (m : Message) (node : Text) (p : Prepared) :
    spoils E s (.message m) (.check node p) = m.retargets.any fun url => E.validUrl url && decide (url ≠ node) := by
  cases m <;> rfl

variable (E) in
def KeepsFigures (s : App) (e : AppEvent) : Prop := ∀ j ∈ s.jobs, spoils E s e j = false

instance (s : App) (e : AppEvent) : Decidable (KeepsFigures E s e) :=
  inferInstanceAs (Decidable (∀ j ∈ s.jobs, spoils E s e j = false))

/-! ### Messages -/

theorem Figs.retarget {s : App} (h : Figs s) {url : Text}
    (hc : ∀ node p, .check node p ∈ s.jobs → E.validUrl url = true → node = url) : Figs (s.retarget E url) := by
  constructor
  · intro w hw
    obtain ⟨w₀, hw₀, rfl⟩ := Option.map_eq_some_iff.mp (Option.mem_def.mp hw)
    split
    · exact h.belong w₀ hw₀
    · exact h.belong w₀ hw₀
  · intro j hj
    refine (h.asked j hj).outdate (Nat.lt_succ_self _) fun node p hjob u hu => ?_
    subst hjob
    obtain ⟨w, hw, rfl⟩ := Option.map_eq_some_iff.mp (Option.mem_def.mp hu)
    obtain ⟨w₀, hw₀, rfl⟩ := Option.map_eq_some_iff.mp hw
    have hnode : node = w₀.client := h.asked _ hj (viewOf w₀) (by rw [hw₀]; rfl)
    split
    · rename_i hu'
      exact hc node p hj hu'
    · exact hnode

theorem Figs.startOwned {s : App} (h : Figs s) {owned : Option Text}
    (hc : ∀ node p, .check node p ∈ s.jobs → ∀ url ∈ owned, E.validUrl url = true → node = url) :
    Figs (s.startOwned E owned) := by
  cases owned with
  | none => exact h
  | some url => exact h.retarget fun node p hj => hc node p hj url rfl

theorem Figs.of_fields {s t : App} (h : Figs s) (hw : t.wallet = s.wallet) (hj : t.jobs = s.jobs)
    (he : t.nodeEpoch = s.nodeEpoch) : Figs t := by
  constructor
  · intro w hmem
    exact h.belong w (hw ▸ hmem)
  · intro j hmem
    rw [hw, he]
    exact h.asked j (hj ▸ hmem)

/-- The rows and the epoch change and no question of this epoch is out but checks. -/
theorem Figs.rearrange {s t : App} {w w' : WalletState} (h : Figs s) (hs : s.wallet = some w)
    (ht : t.wallet = some w') (hb : AllBelong w'.addresses) (hc : w'.client = w.client)
    (he : t.nodeEpoch = s.nodeEpoch) (hj : t.jobs = s.jobs)
    (hout : ∀ j ∈ s.jobs, (∀ node a, j ≠ .poll s.nodeEpoch node a) ∧ ∀ node as, j ≠ .refresh s.nodeEpoch node as) :
    Figs t := by
  constructor
  · intro v hv
    rw [ht, Option.mem_some_iff] at hv
    exact hv ▸ hb
  · intro j hmem
    rw [hj] at hmem
    have hasked := h.asked j hmem
    rw [ht, he]
    cases j with
    | poll epoch node a =>
      refine ⟨hasked.1, fun heq => ?_⟩
      subst heq
      exact absurd rfl ((hout _ hmem).1 node a)
    | refresh epoch node as =>
      refine ⟨hasked.1, fun heq => ?_⟩
      subst heq
      exact absurd rfl ((hout _ hmem).2 node as)
    | check node p =>
      intro u hu
      rw [Option.map_some, Option.mem_some_iff] at hu
      rw [← hu]
      exact (hasked (viewOf w) (by rw [hs]; rfl)).trans hc.symm
    | _ => trivial

theorem Figs.setActiveAddress {s : App} (h : Figs s) {position : ℕ}
    (hc : KeepsFigures E s (.message (.setActiveAddress position))) :
    Figs (s.edit (WalletState.setActiveAddress position)) := by
  cases hw : s.wallet with
  | none =>
    rw [App.edit, onWallet_none hw]
    exact h
  | some w =>
    by_cases hmove : position < w.addresses.length ∧ position ≠ w.active
    · have hf : w.setActiveAddress position =
          { w with addresses := w.setLoading w.active false, active := position } := by
        simp [WalletState.setActiveAddress, hmove]
      have hedit : s.edit (WalletState.setActiveAddress position) =
          { s with wallet := some (w.setActiveAddress position) } := by
        simp [App.edit, App.onWallet, hw]
      have hkeys : (w.setLoading w.active false).map (·.address) = w.addresses.map (·.address) :=
        map_address_of_key (map_key_modify (f := fun e => { e with loading := false }) (fun _ => rfl) _ _)
      rw [hedit, hf]
      constructor
      · intro v hv
        rw [Option.mem_some_iff] at hv
        subst hv
        exact (h.belong w hw).modify fun _ _ hb => hb
      · intro j hj
        have hasked := h.asked j hj
        rw [hw] at hasked
        cases j with
        | poll epoch node a =>
          refine ⟨hasked.1, fun heq => ?_⟩
          have hsp := hc _ hj
          simp [spoils, heq, hw, hmove] at hsp
        | refresh epoch node as =>
          refine ⟨hasked.1, fun heq => ?_⟩
          obtain ⟨u, hu, hn, hpre⟩ := hasked.2 heq
          rw [Option.map_some, Option.mem_some_iff] at hu
          subst hu
          refine ⟨_, rfl, hn, ?_⟩
          show as <+: (w.setLoading w.active false).map (·.address)
          rw [hkeys]
          exact hpre
        | check node p =>
          intro u hu
          rw [Option.map_some, Option.mem_some_iff] at hu
          rw [← hu]
          exact hasked (viewOf w) rfl
        | _ => trivial
    · have hf : w.setActiveAddress position = w := by
        unfold WalletState.setActiveAddress
        rw [if_neg (by simpa using hmove)]
      refine h.edit fun w' hw' => ?_
      rw [hw, Option.some.injEq] at hw'
      subst hw'
      rw [hf]
      exact .refl w

theorem Figs.importKeyAdd {s : App} (h : Figs s) (saved : DiskOutcome) : Figs (s.importKeyAdd saved) := by
  unfold App.importKeyAdd
  cases hw : s.wallet with
  | none => exact h
  | some w =>
    have hsame : ∀ w' : WalletState, w'.addresses = w.addresses → w'.client = w.client → w'.active = w.active →
        Figs { s with wallet := some w' } := by
      intro w' hr hc ha
      have hedit := h.edit (f := fun _ => w') fun v hv => by
        rw [hw, Option.some.injEq] at hv
        subst hv
        exact .same hr hc ha (by simp)
      simpa [App.edit, App.onWallet, hw] using hedit
    simp only
    split
    · exact hsame _ rfl rfl rfl
    · rename_i seed address _ _
      split
      · refine Figs.refreshAll ?_
        have hedit := h.edit (f := fun _ => { w.addKey seed address with importKey := .idle }) fun v hv => by
          rw [hw, Option.some.injEq] at hv
          subst hv
          refine ⟨fun hb => hb.append_new _ _, rfl, rfl, ?_, by simp⟩
          simp [WalletState.addKey]
        refine hedit.of_fields ?_ ?_ ?_ <;> simp [App.edit, App.onWallet, hw]
      · exact hsame _ rfl rfl rfl
    · exact h

theorem closeSlot_belongs {slot : ℕ} {e : AddressEntry} (h : e.Belongs) : (WalletState.closeSlot slot e).Belongs := by
  unfold WalletState.closeSlot
  split
  · split
    · exact h
    · exact h
  · exact h

theorem openSlot_belongs {slot : ℕ} {e : AddressEntry} (h : e.Belongs) : (WalletState.openSlot slot e).Belongs := by
  unfold WalletState.openSlot
  split
  · split
    · exact h
    · exact h
  · exact h

theorem AllBelong.dropKey {w : WalletState} (h : AllBelong w.addresses) (slot : ℕ) :
    AllBelong (w.dropKey slot).addresses := by
  have hfilter : AllBelong (w.addresses.filter (·.source ≠ .imported slot)) :=
    fun e he => h e (List.mem_filter.mp he).1
  exact hfilter.map fun _ hb => closeSlot_belongs hb

/-- The removal takes a row out, or puts it last when it was not written. -/
theorem Figs.removeKeyConfirm {s : App} (h : Figs s) {saved : DiskOutcome}
    (hc : KeepsFigures E s (.message (.removeKeyConfirm saved))) : Figs (s.removeKeyConfirm saved) := by
  unfold App.removeKeyConfirm
  cases hw : s.wallet with
  | none => exact h
  | some w =>
    simp only
    split
    · rename_i r hr hb
      split
      · exact h
      · rename_i htyped
        split
        · exact h
        · have hremoves : s.wallet.any (·.removes) = true := by
            simpa [hw, WalletState.removes, hr, hb] using htyped
          have hout : ∀ j ∈ s.jobs, (∀ node a, j ≠ .poll s.nodeEpoch node a) ∧
              ∀ node as, j ≠ .refresh s.nodeEpoch node as := by
            intro j hj
            have hsp := hc j hj
            constructor
            · rintro node a rfl
              simp [spoils, hremoves] at hsp
            · rintro node as rfl
              simp [spoils, hremoves] at hsp
          have hdrop := (h.belong w hw).dropKey r.slot
          split
          · exact h.rearrange hw rfl hdrop rfl rfl rfl hout
          · refine h.rearrange hw rfl ?_ rfl rfl rfl hout
            exact (hdrop.map fun _ hb => openSlot_belongs hb).append_new _ _
    · exact h

theorem Figs.importContinue {s : App} (h : Figs s) : Figs s.importContinue := by
  unfold App.importContinue
  split
  · exact h
  · split
    · exact h
    · refine ⟨fun w hw => by simp at hw, fun j hj => ?_⟩
      exact (h.asked j hj).outdate (Nat.lt_succ_self _) fun node p _ u hu => by simp at hu

theorem Figs.sendConfirm {s : App} (h : Figs s) : Figs (s.onWallet WalletState.sendConfirm) := by
  refine h.onWallet fun w _ => ?_
  unfold WalletState.sendConfirm
  split
  · exact .refl w
  · split
    · refine ⟨fun hb => hb, rfl, rfl, List.prefix_rfl, fun j hj => ?_⟩
      rw [List.mem_singleton] at hj
      subst hj
      intro u hu
      rw [Option.mem_some_iff] at hu
      exact hu ▸ rfl
    · exact .refl w

theorem Figs.pollTick {s : App} (h : Figs s) : Figs (s.onWallet (WalletState.pollTick s.nodeEpoch)) := by
  refine h.onWallet fun w _ => ?_
  unfold WalletState.pollTick
  split
  · exact .refl w
  · split
    · exact .refl w
    · rename_i entry hentry
      refine ⟨fun hb => hb, rfl, rfl, List.prefix_rfl, fun j hj => ?_⟩
      rw [List.mem_singleton] at hj
      subst hj
      refine ⟨le_rfl, fun _ => ⟨_, rfl, rfl, ?_⟩⟩
      simp [viewOf, hentry]

theorem Figs.update {s : App} (h : Figs s) {m : Message} (hc : KeepsFigures E s (.message m)) :
    Figs (update E s m) := by
  by_cases hf : m.isForm = true
  · exact .of_quiet (update_quiet s hf) h
  -- A check in flight was asked of the node the message turns to.
  have hnode : ∀ node p, .check node p ∈ s.jobs → ∀ url ∈ m.retargets, E.validUrl url = true → node = url := by
    intro node p hj url hurl hv
    have hsp := hc _ hj
    rw [spoils_check, Option.mem_def.mp hurl] at hsp
    have heq : url = node := by simpa [hv] using hsp
    exact heq.symm
  cases m with
  | «show» screen =>
    have hw : screen = .wallet := by simpa [Message.isForm] using hf
    subst hw
    simp only [Gui.update]
    unfold App.showScreen
    split
    · exact h
    · exact (Figs.of_quiet (E := E) (Quiet.closePanels s) h).refreshAll
  | nodeUrlChanged url => exact h.retarget fun node p hj => hnode node p hj url rfl
  | retryNode url =>
    have hre := h.retarget (E := E) fun node p hj => hnode node p hj url rfl
    exact .of_quiet (E := E) (.showScreen _ (by decide)) hre
  | startCreate master owned => exact (h.startOwned hnode).of_fields rfl rfl rfl
  | startRestore owned => exact (h.startOwned hnode).of_fields rfl rfl rfl
  | startImportFile owned => exact (h.startOwned hnode).of_fields rfl rfl rfl
  | importContinue => exact h.importContinue
  | pollTick => exact h.pollTick
  | refreshAll => exact h.refreshAll
  | setActiveAddress position => exact h.setActiveAddress hc
  | addAddress =>
    refine h.onWallet fun w _ => ?_
    unfold WalletState.addAddress
    split
    · exact .refl w
    · exact .same rfl rfl rfl (by simp [Job.isFigure])
  | importKeyAdd saved => exact h.importKeyAdd saved
  | removeKeyConfirm saved => exact h.removeKeyConfirm hc
  | sendReview =>
    refine h.edit fun w _ => ?_
    obtain hr | ⟨p, -, -, hr⟩ := sendReview_cases (E := E) w
    · rw [hr]
      exact .refl w
    · rw [hr]
      exact .same rfl rfl rfl (by simp)
  | sendBackToCompose =>
    refine h.edit fun w _ => ?_
    unfold WalletState.sendBackToCompose
    split
    · exact .same rfl rfl rfl (by simp)
    · exact .refl w
  | sendConfirm => exact h.sendConfirm
  | sendRetry =>
    refine h.onWallet fun w _ => ?_
    unfold WalletState.sendRetry
    split
    · exact .refl w
    · refine .same rfl rfl rfl ?_
      simp only [WalletState.submitOutstanding]
      split <;> simp [Job.isFigure]
  | sendClear =>
    refine h.edit fun w _ => ?_
    unfold WalletState.sendClear
    split
    · exact .refl w
    · exact .refl w
    · exact .same rfl rfl rfl (by simp)
    · exact .same rfl rfl rfl (by simp)
  | _ => simp [Message.isForm] at hf

/-! ### Answers -/

theorem Figs.pollTickFetched {s : App} {i : ℕ} {epoch : ℕ} {node asked : Text} {r : AddressResult} (h : Figs s)
    (hj : s.jobs[i]? = some (.poll epoch node asked)) :
    Figs (deliver E s i (.address r)) := by
  rw [deliver_some hj]
  simp only [resume]
  refine (h.take i).edit fun w hw => ?_
  have hasked := h.asked _ (List.mem_of_getElem? hj)
  unfold WalletState.pollTickFetched
  simp only
  split
  · exact .same rfl rfl rfl (by simp)
  · rename_i hcur
    rw [decide_eq_true_eq, ne_eq, not_not] at hcur
    obtain ⟨u, hu, hn, hrow⟩ := hasked.2 hcur
    rw [show s.wallet = some w from hw, Option.map_some, Option.mem_some_iff] at hu
    subst hu
    refine ⟨fun hb => hb.modify fun e he hbe => hbe.apply true r ⟨?_, hn⟩, rfl, rfl, ?_, by simp⟩
    · simp only [viewOf, List.getElem?_map, he, Option.map_some, Option.some.injEq] at hrow
      exact hrow.symm
    · rw [map_address_of_key (map_key_modify (fun e => applyAddressResult_key _ _ e r) _ _)]

theorem Figs.refreshAllFetched {s : App} {i : ℕ} {epoch : ℕ} {node : Text} {asked : List Text}
    {rs : List AddressResult} (h : Figs s) (hj : s.jobs[i]? = some (.refresh epoch node asked)) :
    Figs (deliver E s i (.addresses rs)) := by
  rw [deliver_some hj]
  simp only [resume]
  refine (h.take i).edit fun w hw => ?_
  have hasked := h.asked _ (List.mem_of_getElem? hj)
  unfold WalletState.refreshAllFetched
  simp only
  split
  · have hmap : (w.addresses.map fun e => { e with loading := false }).map (·.address) =
        w.addresses.map (·.address) := by
      rw [List.map_map]
      rfl
    exact ⟨fun hb => hb.map fun _ hb => hb, rfl, rfl, hmap ▸ List.prefix_rfl, by simp⟩
  · rename_i hcur
    rw [decide_eq_true_eq, ne_eq, not_not] at hcur
    obtain ⟨u, hu, hn, hpre⟩ := hasked.2 hcur
    rw [show s.wallet = some w from hw, Option.map_some, Option.mem_some_iff] at hu
    subst hu
    refine ⟨fun hb => hb.zipResults hn hpre, rfl, rfl, ?_, by simp⟩
    rw [map_address_of_key (map_key_zipResults node w.client w.addresses _)]

/-- Two addresses that one source leads to are the same. -/
theorem Resolves.unique {w : WalletState} {source : AddressSource} {a b : Text} (ha : Resolves E w source a)
    (hb : Resolves E w source b) : a = b := Option.some.inj (ha.symm.trans hb)

theorem FigChange.noteCeiling {epoch : ℕ} {w : WalletState} {node : Text} {p : Prepared} {r : AddressResult}
    (hok : RowsOk E w) (hst : w.send.stage = .checking p) (hn : node = w.client) :
    FigChange epoch w (w.noteCeiling node p p r, []) := by
  unfold WalletState.noteCeiling
  split
  · exact .refl w
  · rename_i i hi
    refine ⟨fun hb => hb.modify fun e he hbe => hbe.apply false r ⟨?_, hn⟩, rfl, rfl, ?_, by simp⟩
    · -- The row found by the sender's source is the sender's row.
      obtain ⟨hlt, hsrc, -⟩ := List.findIdx?_eq_some_iff_getElem.mp hi
      rw [List.getElem?_eq_getElem hlt, Option.some.injEq] at he
      rw [he, decide_eq_true_eq] at hsrc
      have hrow := hok.rows e (he ▸ List.getElem_mem hlt)
      rw [hsrc] at hrow
      exact (hok.prepared p (by simp [hst, SendStage.prepared])).unique hrow
    · rw [map_address_of_key (map_key_modify (fun e => applyAddressResult_key _ _ e r) _ _)]

theorem FigChange.trans {epoch : ℕ} {w w' : WalletState} {out : WalletState × List Job}
    (h : FigChange epoch w (w', [])) (h' : FigChange epoch w' out) : FigChange epoch w out :=
  ⟨fun hb => h'.rows (h.rows hb), h'.client.trans h.client, h'.active.trans h.active, h.order.trans h'.order, h'.jobs⟩

theorem FigChange.sendSpendableChecked {epoch : ℕ} {w : WalletState} {node : Text} {p : Prepared}
    {r : AddressResult} {now : Option ℕ} {key : Text} (hok : RowsOk E w) (hst : w.send.stage = .checking p)
    (hn : node = w.client) : FigChange epoch w (w.sendSpendableChecked E node p r now key) := by
  have hnote : FigChange epoch w (w.noteCeiling node p p r, []) := .noteCeiling hok hst hn
  unfold WalletState.sendSpendableChecked
  rw [hst]
  simp only
  split
  · exact .refl w
  · split
    · exact .same rfl rfl rfl (by simp)
    · split
      · split
        · exact hnote.trans (.same rfl rfl rfl (by simp))
        · refine hnote.trans (.same rfl rfl rfl ?_)
          simp [WalletState.submitOutstanding, WalletState.onSend, Job.isFigure]
      · exact hnote.trans (.same rfl rfl rfl (by simp))

theorem Figs.addressStoreSaved {s : App} (h : Figs s) (next : Option ℕ) :
    Figs (s.edit (WalletState.addressStoreSaved E next)) := by
  refine h.edit fun w _ => ?_
  unfold WalletState.addressStoreSaved
  cases next with
  | none => exact .same rfl rfl rfl (by simp)
  | some next =>
    refine ⟨fun hb => hb.append_new _ _, rfl, rfl, ?_, by simp⟩
    simp

theorem Figs.install {s : App} {i : ℕ} {r : Ready} (h : Figs s) (hj : s.jobs[i]? = some (.ready (some r)))
    (hu : E.validUrl r.nodeUrl = true) (hc : KeepsFigures E s (.answer i .done)) :
    Figs (deliver E s i .done) := by
  have hinst := installs_answer hj hu
  rw [deliver_some hj]
  simp only [resume, App.setupReady, hu, Bool.not_true, Bool.false_eq_true, if_false]
  refine Figs.refreshAll ⟨?_, fun j hmem => ?_⟩
  · intro w hw
    rw [Option.mem_some_iff] at hw
    subst hw
    intro e he
    rcases List.mem_append.mp he with he | he
    · obtain ⟨n, -, rfl⟩ := List.mem_map.mp he
      exact belongs_new _ _
    · obtain ⟨q, -, he⟩ := List.mem_filterMap.mp he
      obtain ⟨seed, -, rfl⟩ := Option.map_eq_some_iff.mp he
      exact belongs_new _ _
  · have hmem' : j ∈ s.jobs := List.mem_of_mem_eraseIdx hmem
    have hasked := h.asked j hmem'
    have hsp := hc j hmem'
    cases j with
    | poll epoch node a =>
      refine ⟨hasked.1, fun heq => ?_⟩
      have hcur : epoch = s.nodeEpoch := heq
      simp [spoils, hcur, hinst] at hsp
    | refresh epoch node as =>
      refine ⟨hasked.1, fun heq => ?_⟩
      have hcur : epoch = s.nodeEpoch := heq
      simp [spoils, hcur, hinst] at hsp
    | check node p => simp [spoils, hinst] at hsp
    | _ => trivial

theorem Figs.answer {s : App} {i : ℕ} {a : Answer} (h : Figs s) (hsend : SendInv s) (hrows : RowsResolve E s)
    (hc : KeepsFigures E s (.answer i a)) : Figs (deliver E s i a) := by
  cases hj : s.jobs[i]? with
  | none =>
    rw [deliver_none hj]
    exact h
  | some j =>
    have htake := h.take i
    by_cases ha : j.answeredBy a = true
    · cases j with
      | poll epoch node asked =>
        cases a with
        | address r => exact h.pollTickFetched hj
        | _ => simp [Job.answeredBy] at ha
      | refresh epoch node asked =>
        cases a with
        | addresses rs => exact h.refreshAllFetched hj
        | _ => simp [Job.answeredBy] at ha
      | check node p =>
        cases a with
        | ceiling r now key =>
          have hmem := List.mem_of_getElem? hj
          have hpay := (SendOk.check hsend ((mem_sendJobs rfl).mpr hmem)).1
          rw [deliver_some hj]
          refine htake.onWallet fun w hw => ?_
          have hw' : s.wallet = some w := hw
          rw [payment_some hw', Option.some.injEq, Prod.mk.injEq] at hpay
          refine .sendSpendableChecked (hrows w hw) hpay.1 (h.asked _ hmem (viewOf w) ?_)
          rw [hw']
          rfl
        | _ => simp [Job.answeredBy] at ha
      | post node b =>
        cases a with
        | response r =>
          rw [deliver_some hj]
          exact htake.edit fun w _ => .same rfl rfl rfl (by simp)
        | _ => simp [Job.answeredBy] at ha
      | save f =>
        cases a with
        | disk o =>
          rw [deliver_some hj]
          exact Figs.start (s := { s.take i with disk := s.disk.save f o }) (htake.of_fields rfl rfl rfl) rfl
        | _ => simp [Job.answeredBy] at ha
      | saved next =>
        cases a with
        | done =>
          rw [deliver_some hj]
          simp only [resume]
          split
          · exact (htake.addressStoreSaved next).refreshAll
          · exact htake.addressStoreSaved next
        | _ => simp [Job.answeredBy] at ha
      | create master restored passphrase nodeUrl =>
        cases a with
        | scan found o =>
          rw [deliver_some hj]
          simp only [resume]
          split
          · exact htake.start rfl
          · exact Figs.start (s := ((s.take i).replaceFile _ nodeUrl o).1) (htake.of_fields rfl rfl rfl) rfl
        | _ => simp [Job.answeredBy] at ha
      | useFile f nodeUrl =>
        cases a with
        | disk o =>
          rw [deliver_some hj]
          exact Figs.start (s := ((s.take i).replaceFile f nodeUrl o).1) (htake.of_fields rfl rfl rfl) rfl
        | _ => simp [Job.answeredBy] at ha
      | ready r =>
        cases a with
        | done =>
          by_cases hr : ∃ r', r = some r' ∧ E.validUrl r'.nodeUrl = true
          · obtain ⟨r', rfl, hu⟩ := hr
            exact h.install hj hu hc
          · rw [deliver_some hj]
            refine .of_quiet (E := E) (resume_quiet _ rfl fun r' he _ => ?_) htake
            by_contra hu
            exact hr ⟨r', Job.ready.inj he, by simpa using hu⟩
        | _ => simp [Job.answeredBy] at ha
      | _ =>
        rw [deliver_some hj]
        exact .of_quiet (resume_quiet _ rfl (by simp)) htake
    · rw [deliver_some hj, resume_waits _ (by simpa using ha)]
      refine ⟨h.belong, fun k hk => ?_⟩
      exact h.asked k ((jobs_take_start hj).mem_iff.mp hk)

/-! ### Steps and runs -/

variable (E) in
structure FigInv (s : App) : Prop where
  figs : Figs s
  send : SendInv s
  rows : RowsResolve E s

theorem step_figures {s t : App} {e : AppEvent} (hs : FigInv E s) (hc : KeepsFigures E s e)
    (h : AppStep E s e t) : FigInv E t := by
  refine ⟨?_, ?_, step_rows hs.rows h⟩
  · unfold AppStep at h
    subst h
    cases e with
    | message m => exact hs.figs.update hc
    | answer i a => exact hs.figs.answer hs.send hs.rows hc
  · refine step_sendInv hs.send (fun hi => ?_) h
    obtain ⟨r, hr⟩ := Option.isSome_iff_exists.mp hi
    obtain ⟨i, rfl, -, -⟩ := installs_eq_some hr
    refine List.filter_eq_nil_iff.mpr fun j hj hsend => ?_
    have hsp := hc j hj
    cases j with
    | check node p => simp [spoils, hi] at hsp
    | post node b => simp [spoils, hi] at hsp
    | _ => simp [Job.isSend] at hsend

theorem figInv_started {s : App} (h : s.Started) : FigInv E s :=
  ⟨⟨by simp [FiguresBelong, h.1], by simp [h.2]⟩, sendInv_started h, by simp [RowsResolve, h.1]⟩

/-- **Main result.** In every run in which no step takes the ground from under a question in
flight, every row shows the figures of its own address, from the node the wallet read. -/
theorem figures_belong_to_their_row {s₀ s : App} {tr : List (App × AppEvent)} (h₀ : s₀.Started)
    (run : Trace.Run (AppStep E) s₀ tr s) (hC : ∀ p ∈ tr, KeepsFigures E p.1 p.2) : FiguresBelong s := by
  have hs : FigInv E s :=
    run.invariant (I := FigInv E) (fun _ _ _ hi hc hst => step_figures hi hc hst) (figInv_started h₀) hC
  exact hs.figs.belong

/-! ### A session -/

namespace Sample

/-- The wallet is opened and has a second address; both rows have figures. -/
def twoRows : List AppEvent :=
  [.message .unlock, .answer 0 (.disk .done), .answer 0 .done, .answer 0 (.addresses [.ok figures]),
    .message .addAddress, .answer 0 (.disk .done), .answer 0 .done,
    .answer 0 (.addresses [.ok figures, .ok figures])]

theorem polled_row_has_its_figures :
    FiguresBelong (play start (twoRows ++ [.message .pollTick, .answer 0 (.address (.ok figures))])) ∧
      (play start (twoRows ++ [.message .pollTick, .answer 0 (.address (.ok figures))])).wallet.map
        (fun w => w.addresses.map (·.balanceUnits)) = some [some 500000000, some 500000000] := by
  refine ⟨?_, by decide +kernel⟩
  exact figures_belong_to_their_row ⟨rfl, rfl⟩
    (run_play start (twoRows ++ [.message .pollTick, .answer 0 (.address (.ok figures))])) (by decide +kernel)

/-- Another row is made active while the poll is out, and shows the polled row's balance. -/
def clickedAway : List AppEvent :=
  twoRows ++ [.message .pollTick, .message (.setActiveAddress 1), .answer 0 (.address (.ok ⟨7, some 7, page⟩))]

theorem poll_lands_on_other_row :
    ¬ ∀ (E : AppEnv) (s₀ s : App) (tr : List (App × AppEvent)), s₀.Started →
      Trace.Run (AppStep E) s₀ tr s → FiguresBelong s := by
  intro h
  have hb := h env start (play start clickedAway) _ ⟨rfl, rfl⟩ (run_play start clickedAway)
  have hrow : ((play start clickedAway).wallet.bind (·.addresses[1]?)).map
      (fun e => (e.balanceUnits, e.origin.map (·.asked), e.address)) =
      some (some 7, some (addressForIndex env [7] 0), addressForIndex env [7] 1) := by decide +kernel
  obtain ⟨e, he, heq⟩ := Option.map_eq_some_iff.mp hrow
  obtain ⟨w, hw, hmem⟩ := Option.bind_eq_some_iff.mp he
  simp only [Prod.mk.injEq] at heq
  obtain ⟨o, ho, hasked, -⟩ := hb w hw e (List.mem_of_getElem? hmem) (.inl (by simp [heq.1]))
  rw [ho, Option.map_some, Option.some.injEq, hasked, heq.2.2] at heq
  exact absurd heq.2.1 (by decide +kernel)

end Sample

end Gui

end Alphanumeric
