/-
# The books of the mesh

When the three maps of the mesh agree. A removal takes its peer out of one map after the
other, so nothing is said of a peer between the sections of a removal; but while one is
under way, no connection of the peer has a channel. With callbacks that come while their
connection is the current one, and no insert over another connection, every connection
built is current, closed or about to be closed, and the count of channels is right.
The maps are keyed by the peer alone, so without that each of the three goes wrong.

Key definitions: `MeshTask.removes`, `MeshTask.closes`, `Mesh.Removing`, `Mesh.Settled`,
`Mesh.Sound`, `Mesh.Orderly`, `Mesh.Inv`.
Key theorems: `Mesh.step_inv`, `Mesh.mesh_sound`.
-/
import Alphanumeric.Mesh
import Alphanumeric.Lib.Trace

namespace Alphanumeric

open Tasks

namespace MeshTask

/-- It is between the sections of a removal of `peer`. -/
def removes (peer : ℕ) : MeshTask → Bool
  | .forgetChannel p _ _ => p = peer
  | .forgetIngress p _ _ => p = peer
  | .shutChannels _ => true
  | .shutIngress _ => true
  | _ => false

/-- It will close the connection. -/
def closes (conn : ℕ) : MeshTask → Bool
  | .abort k => k = conn
  | .forget _ k why => k = conn && why = .closing
  | .forgetChannel _ k why => k = conn && why ≠ .closed
  | .forgetIngress _ k why => k = conn && why ≠ .closed
  | .close k => k = conn
  | .shutChannels ks => conn ∈ ks
  | .shutIngress ks => conn ∈ ks
  | .shutClose ks => conn ∈ ks
  | _ => false

/-- `new_pc` holds the connection and has yet to put it in the map. -/
def holds (conn : ℕ) : MeshTask → Bool
  | .insert _ k _ => k = conn
  | _ => false

/-- It has taken the channel of `peer` out and has yet to drop the count. -/
def dropping (peer : ℕ) : MeshTask → Bool
  | .forgetIngress p _ _ => p = peer
  | .shutIngress _ => true
  | _ => false

/-- The kill switch is set. -/
def flagged : MeshTask → Bool
  | .shutConns => true
  | .shutChannels _ => true
  | .shutIngress _ => true
  | .shutClose _ => true
  | .shut => true
  | _ => false

/-- It has cleared the connections. -/
def cleared : MeshTask → Bool
  | .shutChannels _ => true
  | .shutIngress _ => true
  | .shutClose _ => true
  | .shut => true
  | _ => false

/-- It has cleared the channels. -/
def silenced : MeshTask → Bool
  | .shutIngress _ => true
  | .shutClose _ => true
  | .shut => true
  | _ => false

/-- It removes a connection that is closed already. -/
def buries (conn : ℕ) : MeshTask → Bool
  | .forget _ k why => k = conn && why = .closed
  | .forgetChannel _ k why => k = conn && why = .closed
  | .forgetIngress _ k why => k = conn && why = .closed
  | _ => false

/-- It knows nothing of the maps. -/
def plain : MeshTask → Bool
  | .insert _ _ _ => false
  | .forget _ _ why => why ≠ .closed
  | .forgetChannel _ _ _ => false
  | .forgetIngress _ _ _ => false
  | .shutConns => false
  | .shutChannels _ => false
  | .shutIngress _ => false
  | .shutClose _ => false
  | .shut => false
  | _ => true

end MeshTask

namespace Mesh

/-! ### What the books say -/

def Removing (s : Mesh) (peer : ℕ) : Prop := ∃ t ∈ s.tasks, t.removes peer = true

/-- The peer's channels on its current connection that are registered and not closed. -/
def onCurrent (s : Mesh) (peer : ℕ) : List MeshChannel :=
  s.chans.filter fun c => c.peer = peer ∧ s.conns.lookup peer = some c.conn ∧ c.closed = false

def liveChannels (s : Mesh) (peer : ℕ) : ℕ := ((s.ingress.lookup peer).map (·.liveChannels)).getD 0

/-- The three maps agree about a peer. -/
structure Settled (s : Mesh) (peer : ℕ) : Prop where
  channel : ∀ d, s.channels.lookup peer = some d →
    ∃ c, s.chans[d]? = some c ∧ c.peer = peer ∧ s.conns.lookup peer = some c.conn
  counted : s.liveChannels peer = (s.onCurrent peer).length
  bucket : ∀ c ∈ s.onCurrent peer, (s.ingress.lookup peer).map (·.bucket) = some c.bucket

/-- The bookkeeping is right. -/
structure Sound (s : Mesh) : Prop where
  capped : s.conns.entries.length ≤ meshMaxConns
  accounted : ∀ k pc, s.pcs[k]? = some pc → s.conns.lookup pc.peer = some k ∨ pc.closed = true ∨
    ∃ t ∈ s.tasks, t.closes k = true ∨ t.holds k = true
  settled : ∀ peer, ¬ s.Removing peer → s.Settled peer
  fewChannels : ∀ peer, (s.onCurrent peer).length ≤ meshMaxChannelsPerPeer
  silent : .shut ∈ s.tasks → ∀ peer, s.conns.lookup peer = none ∧ s.channels.lookup peer = none

/-- A channel may be registered: its connection is current and no removal is under way, or the peer is at its
cap. -/
def Registrable (s : Mesh) (peer conn : ℕ) : Prop :=
  s.conns.lookup peer = some conn ∧ ¬ s.Removing peer ∨ meshMaxChannelsPerPeer ≤ s.liveChannels peer

/-- The step puts no connection over another, and the callbacks are those of current connections. -/
def Orderly (s : Mesh) : MeshAction → Prop
  | .step i go => ∀ t, s.tasks[i]? = some t →
    (∀ peer conn dial, t = .insert peer conn dial → s.closed = true ∨ s.conns.lookup peer = none) ∧
      ∀ peer conn, t = .register peer conn → go = true → s.Registrable peer conn
  | .dataChannel conn => ∀ pc, s.pcs[conn]? = some pc → pc.tracked = true → s.Registrable pc.peer conn
  | .opened chan => ∀ c, s.chans[chan]? = some c → s.conns.lookup c.peer = some c.conn
  | .closed chan => ∀ c, s.chans[chan]? = some c → c.closed = false →
    s.conns.lookup c.peer = some c.conn ∨ s.liveChannels c.peer = 0
  | _ => True

/-! ### The invariant -/

/-- What a task knows about the maps. -/
structure Knows (s : Mesh) (t : MeshTask) : Prop where
  fresh : ∀ peer conn dial, t = .insert peer conn dial →
    ∃ pc, s.pcs[conn]? = some pc ∧ pc.peer = peer ∧ pc.tracked = false
  bare : ∀ peer, t.removes peer = true → ∀ c ∈ s.chans, c.peer = peer → s.conns.lookup peer ≠ some c.conn
  dropped : ∀ peer, t.dropping peer = true → s.channels.lookup peer = none
  flag : t.flagged = true → s.closed = true
  clear : t.cleared = true → ∀ peer, s.conns.lookup peer = none
  silent : t.silenced = true → ∀ peer, s.channels.lookup peer = none
  buried : ∀ conn, t.buries conn = true → ∃ pc, s.pcs[conn]? = some pc ∧ pc.closed = true

structure Inv (s : Mesh) : Prop where
  capped : s.conns.entries.length ≤ meshMaxConns
  current : ∀ peer conn, s.conns.lookup peer = some conn →
    ∃ pc, s.pcs[conn]? = some pc ∧ pc.peer = peer ∧ pc.tracked = true
  accounted : ∀ k pc, s.pcs[k]? = some pc → s.conns.lookup pc.peer = some k ∨ pc.closed = true ∨
    ∃ t ∈ s.tasks, t.closes k = true ∨ t.holds k = true
  knows : ∀ t ∈ s.tasks, s.Knows t
  single : ∀ (i j : ℕ) (t t' : MeshTask) (k : ℕ), s.tasks[i]? = some t → s.tasks[j]? = some t' →
    t.holds k = true → t'.holds k = true → i = j
  wired : ∀ c ∈ s.chans, ∃ pc, s.pcs[c.conn]? = some pc ∧ pc.tracked = true
  few : ∀ peer, s.liveChannels peer ≤ meshMaxChannelsPerPeer
  settled : ∀ peer, ¬ s.Removing peer → s.Settled peer

variable {s s' : Mesh} {i : ℕ} {t t' : MeshTask}

theorem Inv.onCurrent_nil (h : s.Inv) {peer : ℕ} (hr : s.Removing peer) : s.onCurrent peer = [] := by
  obtain ⟨t, ht, hremoves⟩ := hr
  rw [onCurrent, List.filter_eq_nil_iff]
  intro c hc
  simp only [decide_eq_true_eq, not_and]
  intro hpeer hcurrent
  exact absurd hcurrent ((h.knows t ht).bare peer hremoves c hc hpeer)

theorem Inv.sound (h : s.Inv) : s.Sound := by
  refine ⟨h.capped, h.accounted, h.settled, ?_, ?_⟩
  · intro peer
    by_cases hr : s.Removing peer
    · rw [h.onCurrent_nil hr]
      exact Nat.zero_le _
    · rw [← (h.settled peer hr).counted]
      exact h.few peer
  · intro hshut peer
    exact ⟨(h.knows _ hshut).clear rfl peer, (h.knows _ hshut).silent rfl peer⟩

/-- A peer whose entries in the maps are as before is settled as before. -/
theorem Settled.frame {peer : ℕ} (h : s.Settled peer) (hconns : s'.conns.lookup peer = s.conns.lookup peer)
    (hchannels : s'.channels.lookup peer = s.channels.lookup peer)
    (hingress : s'.ingress.lookup peer = s.ingress.lookup peer) (hchans : s'.chans = s.chans) : s'.Settled peer := by
  have hon : s'.onCurrent peer = s.onCurrent peer := by
    unfold onCurrent
    rw [hchans, hconns]
  refine ⟨?_, ?_, ?_⟩
  · rw [hchannels, hconns, hchans]
    exact h.channel
  · unfold liveChannels
    rw [hon, hingress]
    exact h.counted
  · rw [hon, hingress]
    exact h.bucket

/-- Nothing in the maps, nothing on the current connection. -/
theorem Settled.of_empty {peer : ℕ} (hchannels : s.channels.lookup peer = none)
    (hingress : s.liveChannels peer = 0) (hon : s.onCurrent peer = []) : s.Settled peer := by
  refine ⟨?_, ?_, ?_⟩
  · intro d hd
    rw [hchannels] at hd
    cases hd
  · rw [hingress, hon]
    rfl
  · rw [hon]
    simp

/-- Connections keep their peer and only become tracked and closed. -/
def Grown (pcs pcs' : List PeerConn) : Prop :=
  ∀ (k : ℕ) (pc : PeerConn), pcs[k]? = some pc → ∃ pc', pcs'[k]? = some pc' ∧ pc'.peer = pc.peer ∧
    (pc.tracked = true → pc'.tracked = true) ∧ (pc.closed = true → pc'.closed = true)

theorem Grown.refl (pcs : List PeerConn) : Grown pcs pcs := fun _ pc hpc => ⟨pc, hpc, rfl, id, id⟩

/-- What a task knows stays true while connections grow and the maps lose entries only. -/
theorem Knows.frame (h : s.Knows t) (hpcs : Grown s.pcs s'.pcs)
    (hfresh : ∀ (conn : ℕ) (pc pc' : PeerConn), t.holds conn = true → s.pcs[conn]? = some pc →
      s'.pcs[conn]? = some pc' → pc.tracked = false → pc'.tracked = false)
    (hchans : s'.chans = s.chans) (hconns : ∀ p k, s'.conns.lookup p = some k → s.conns.lookup p = some k)
    (hchannels : ∀ p d, s'.channels.lookup p = some d → s.channels.lookup p = some d)
    (hclosed : s.closed = true → s'.closed = true) : s'.Knows t := by
  refine ⟨?_, ?_, ?_, fun hf => hclosed (h.flag hf), ?_, ?_, ?_⟩
  · intro peer conn dial ht
    obtain ⟨pc, hpc, hpeer, htracked⟩ := h.fresh peer conn dial ht
    obtain ⟨pc', hpc', hpeer', -⟩ := hpcs conn pc hpc
    refine ⟨pc', hpc', hpeer'.trans hpeer, hfresh conn pc pc' ?_ hpc hpc' htracked⟩
    rw [ht]
    simp [MeshTask.holds]
  · intro peer hremoves c hc hpeer hcurrent
    rw [hchans] at hc
    exact h.bare peer hremoves c hc hpeer (hconns _ _ hcurrent)
  · intro peer hdropping
    have hnone := h.dropped peer hdropping
    cases hd : s'.channels.lookup peer with
    | none => rfl
    | some d =>
      rw [hchannels _ _ hd] at hnone
      cases hnone
  · intro hcleared peer
    have hnone := h.clear hcleared peer
    cases hk : s'.conns.lookup peer with
    | none => rfl
    | some k =>
      rw [hconns _ _ hk] at hnone
      cases hnone
  · intro hsilenced peer
    have hnone := h.silent hsilenced peer
    cases hd : s'.channels.lookup peer with
    | none => rfl
    | some d =>
      rw [hchannels _ _ hd] at hnone
      cases hnone
  · intro conn hburies
    obtain ⟨pc, hpc, hclosed⟩ := h.buried conn hburies
    obtain ⟨pc', hpc', -, -, hkeep⟩ := hpcs conn pc hpc
    exact ⟨pc', hpc', hkeep hclosed⟩

/-- The connections of `s'` are those of `s`, tracked as before. -/
def SameTracked (s s' : Mesh) : Prop :=
  s'.pcs.length = s.pcs.length ∧ ∀ (k : ℕ) (pc pc' : PeerConn), s.pcs[k]? = some pc → s'.pcs[k]? = some pc' →
    pc'.tracked = pc.tracked

theorem Grown.back (h : Grown s.pcs s'.pcs) (hsame : SameTracked s s') {k : ℕ} {pc' : PeerConn}
    (hpc' : s'.pcs[k]? = some pc') : ∃ pc, s.pcs[k]? = some pc ∧ pc'.peer = pc.peer ∧
      (pc.closed = true → pc'.closed = true) := by
  have hlt : k < s.pcs.length := hsame.1 ▸ (List.getElem?_eq_some_iff.mp hpc').1
  obtain ⟨pc'', hpc'', hpeer, -, hclosed⟩ := h k s.pcs[k] (List.getElem?_eq_getElem hlt)
  rw [hpc'] at hpc''
  cases hpc''
  exact ⟨s.pcs[k], List.getElem?_eq_getElem hlt, hpeer, hclosed⟩

theorem mem_set_of_get (ht : s.tasks[i]? = some t) (htasks : s'.tasks = s.tasks.set i t') : t' ∈ s'.tasks := by
  rw [htasks]
  exact List.mem_set (List.getElem?_eq_some_iff.mp ht).1 t'

/-- A task before the step is the one that moved or is still there. -/
theorem eq_or_mem_of_set (ht : s.tasks[i]? = some t) (htasks : s'.tasks = s.tasks.set i t') {u : MeshTask}
    (hu : u ∈ s.tasks) : u = t ∨ u ∈ s'.tasks := by
  obtain ⟨j, hj⟩ := List.getElem?_of_mem hu
  by_cases hij : i = j
  · subst hij
    rw [ht] at hj
    cases hj
    exact .inl rfl
  · right
    rw [htasks]
    exact List.mem_of_getElem? (by rw [List.getElem?_set_ne hij]; exact hj)

/-- No two tasks hold one connection, if the one that moved holds what it held or what nobody did. -/
theorem single_of_set (h : s.Inv) (ht : s.tasks[i]? = some t) (htasks : s'.tasks = s.tasks.set i t')
    (hholds : ∀ k, t'.holds k = true → t.holds k = true ∨ ∀ u ∈ s.tasks, u.holds k = false) :
    ∀ (j j' : ℕ) (u u' : MeshTask) (k : ℕ), s'.tasks[j]? = some u → s'.tasks[j']? = some u' →
      u.holds k = true → u'.holds k = true → j = j' := by
  have hone : ∀ (j : ℕ) (u : MeshTask) (k : ℕ), s.tasks[j]? = some u → u.holds k = true → t'.holds k = true →
      j = i := by
    intro j u k hj hu hk
    rcases hholds k hk with hold | hnone
    · exact h.single _ _ _ _ k hj ht hu hold
    · rw [hnone u (List.mem_of_getElem? hj)] at hu
      cases hu
  intro j j' u u' k hj hj' hu hu'
  rw [htasks] at hj hj'
  rcases get_set_cases hj with ⟨rfl, rfl⟩ | ⟨-, hold⟩
  · rcases get_set_cases hj' with ⟨rfl, rfl⟩ | ⟨-, hold'⟩
    · rfl
    · exact (hone _ _ k hold' hu' hu).symm
  · rcases get_set_cases hj' with ⟨rfl, rfl⟩ | ⟨-, hold'⟩
    · exact hone _ _ k hold hu hu'
    · exact h.single _ _ _ _ k hold hold' hu hu'

/-- A task moves on, and the maps lose entries only. -/
theorem Inv.next (h : s.Inv) (ht : s.tasks[i]? = some t) (htasks : s'.tasks = s.tasks.set i t')
    (hpcs : Grown s.pcs s'.pcs) (hsame : SameTracked s s') (hchans : s'.chans = s.chans)
    (hlength : s'.conns.entries.length ≤ s.conns.entries.length)
    (hconns : ∀ p k, s'.conns.lookup p = some k → s.conns.lookup p = some k)
    (hchannels : ∀ p d, s'.channels.lookup p = some d → s.channels.lookup p = some d)
    (hingress : ∀ p, s'.liveChannels p ≤ s.liveChannels p) (hclosed : s.closed = true → s'.closed = true)
    (haccounted : ∀ (k : ℕ) (pc : PeerConn), s.pcs[k]? = some pc →
      s.conns.lookup pc.peer = some k ∨ t.closes k = true ∨ t.holds k = true →
      s'.conns.lookup pc.peer = some k ∨ (∀ pc', s'.pcs[k]? = some pc' → pc'.closed = true) ∨
        t'.closes k = true ∨ t'.holds k = true)
    (hholds : ∀ k, t'.holds k = true → t.holds k = true) (hknows : s'.Knows t')
    (hsettled : ∀ p, ¬ s'.Removing p → s'.Settled p) : s'.Inv := by
  have hnew := mem_set_of_get ht htasks
  refine ⟨hlength.trans h.capped, ?_, ?_, ?_, single_of_set h ht htasks fun k hk => .inl (hholds k hk), ?_,
    fun p => (hingress p).trans (h.few p), hsettled⟩
  · intro peer conn hcurrent
    obtain ⟨pc, hpc, hpeer, htracked⟩ := h.current peer conn (hconns _ _ hcurrent)
    obtain ⟨pc', hpc', hpeer', hkeep, -⟩ := hpcs conn pc hpc
    exact ⟨pc', hpc', hpeer'.trans hpeer, hkeep htracked⟩
  · intro k pc' hpc'
    obtain ⟨pc, hpc, hpeer, hkeep⟩ := hpcs.back hsame hpc'
    -- The connection was accounted for by the map, by its state, by this task or by another.
    have hmove : s.conns.lookup pc.peer = some k ∨ t.closes k = true ∨ t.holds k = true →
        s'.conns.lookup pc'.peer = some k ∨ pc'.closed = true ∨
          ∃ u ∈ s'.tasks, u.closes k = true ∨ u.holds k = true := by
      intro hk
      rcases haccounted k pc hpc hk with hcurrent | hclosed' | hby
      · exact .inl (hpeer ▸ hcurrent)
      · exact .inr (.inl (hclosed' pc' hpc'))
      · exact .inr (.inr ⟨t', hnew, hby⟩)
    rcases h.accounted k pc hpc with hcurrent | hdone | ⟨u, hu, hby⟩
    · exact hmove (.inl hcurrent)
    · exact .inr (.inl (hkeep hdone))
    · rcases eq_or_mem_of_set ht htasks hu with rfl | hstill
      · exact hmove (.inr hby)
      · exact .inr (.inr ⟨u, hstill, hby⟩)
  · intro u hu
    rw [htasks] at hu
    rcases List.mem_or_eq_of_mem_set hu with hold | rfl
    · refine (h.knows u hold).frame hpcs ?_ hchans hconns hchannels hclosed
      intro conn pc pc' _ hpc hpc' huntracked
      rw [hsame.2 conn pc pc' hpc hpc']
      exact huntracked
    · exact hknows
  · intro c hc
    rw [hchans] at hc
    obtain ⟨pc, hpc, htracked⟩ := h.wired c hc
    obtain ⟨pc', hpc', -, hkeep, -⟩ := hpcs c.conn pc hpc
    exact ⟨pc', hpc', hkeep htracked⟩

theorem knows_plain (h : t.plain = true) : s.Knows t := by
  cases t with
  | insert peer conn dial => cases h
  | forgetChannel peer conn why => cases h
  | forgetIngress peer conn why => cases h
  | shutConns => cases h
  | shutChannels conns => cases h
  | shutIngress conns => cases h
  | shutClose conns => cases h
  | shut => cases h
  | forget peer conn why =>
    have hwhy : why ≠ .closed := by simpa [MeshTask.plain] using h
    refine ⟨by simp, by simp [MeshTask.removes], by simp [MeshTask.dropping], by simp [MeshTask.flagged],
      by simp [MeshTask.cleared], by simp [MeshTask.silenced], by simp [MeshTask.buries, hwhy]⟩
  | _ =>
    exact ⟨by simp, by simp [MeshTask.removes], by simp [MeshTask.dropping], by simp [MeshTask.flagged],
      by simp [MeshTask.cleared], by simp [MeshTask.silenced], by simp [MeshTask.buries]⟩

theorem not_removing_of_set (ht : s.tasks[i]? = some t) (htasks : s'.tasks = s.tasks.set i t') {peer : ℕ}
    (hkeeps : t.removes peer = true → t'.removes peer = true) (h : ¬ s'.Removing peer) : ¬ s.Removing peer := by
  rintro ⟨u, hu, hremoves⟩
  apply h
  rcases eq_or_mem_of_set ht htasks hu with rfl | hstill
  · exact ⟨t', mem_set_of_get ht htasks, hkeeps hremoves⟩
  · exact ⟨u, hstill, hremoves⟩

/-- A task moves on and the maps stay. -/
theorem Inv.move (h : s.Inv) (ht : s.tasks[i]? = some t) (htasks : s'.tasks = s.tasks.set i t')
    (hpcs : Grown s.pcs s'.pcs) (hsame : SameTracked s s') (hchans : s'.chans = s.chans)
    (hconns : s'.conns = s.conns) (hchannels : s'.channels = s.channels) (hingress : s'.ingress = s.ingress)
    (hclosed : s.closed = true → s'.closed = true)
    (hcloses : ∀ k, t.closes k = true ∨ t.holds k = true →
      (∀ pc', s'.pcs[k]? = some pc' → pc'.closed = true) ∨ t'.closes k = true ∨ t'.holds k = true)
    (hholds : ∀ k, t'.holds k = true → t.holds k = true) (hknows : s'.Knows t')
    (hremoves : ∀ p, t.removes p = true → t'.removes p = true) : s'.Inv := by
  refine h.next ht htasks hpcs hsame hchans (by rw [hconns]) (by rw [hconns]; exact fun _ _ hk => hk)
    (by rw [hchannels]; exact fun _ _ hd => hd) ?_ hclosed ?_ hholds hknows ?_
  · intro p
    unfold liveChannels
    rw [hingress]
  · rintro k pc - (hcurrent | hby)
    · rw [hconns]
      exact .inl hcurrent
    · exact .inr (hcloses k hby)
  · intro p hp
    have hsettled := h.settled p (not_removing_of_set ht htasks (hremoves p) hp)
    exact hsettled.frame (by rw [hconns]) (by rw [hchannels]) (by rw [hingress]) hchans

theorem sameTracked_refl (s s' : Mesh) (hpcs : s'.pcs = s.pcs) : SameTracked s s' := by
  refine ⟨by rw [hpcs], ?_⟩
  intro k pc pc' hpc hpc'
  rw [hpcs, hpc] at hpc'
  cases hpc'
  rfl

/-- The task moves on and nothing else happens. -/
theorem Inv.goTo (h : s.Inv) (ht : s.tasks[i]? = some t)
    (hcloses : ∀ k, t.closes k = true ∨ t.holds k = true → t'.closes k = true)
    (hplain : t'.plain = true) (hremoves : ∀ p, t.removes p = false) : (s.goTo i t').Inv := by
  refine h.move ht rfl (Grown.refl _) (sameTracked_refl _ _ rfl) rfl rfl rfl rfl id ?_ ?_ (knows_plain hplain) ?_
  · exact fun k hk => .inr (.inl (hcloses k hk))
  · intro k hk
    cases t' with
    | insert peer conn dial => cases hplain
    | _ => cases hk
  · intro p hp
    rw [hremoves p] at hp
    cases hp

theorem getElem?_modify_ite (pcs : List PeerConn) (conn k : ℕ) (f : PeerConn → PeerConn) :
    (pcs.modify conn f)[k]? = if conn = k then pcs[k]?.map f else pcs[k]? := by
  by_cases hk : conn = k
  · simp [hk]
  · simp [hk]

theorem closePc_grown (s : Mesh) (conn : ℕ) : Grown s.pcs (s.closePc conn).pcs ∧ SameTracked s (s.closePc conn) ∧
    ∀ pc', (s.closePc conn).pcs[conn]? = some pc' → pc'.closed = true := by
  unfold closePc
  refine ⟨?_, ⟨by simp, ?_⟩, ?_⟩
  · intro k pc hpc
    rw [getElem?_modify_ite, hpc]
    by_cases hk : conn = k
    · rw [if_pos hk]
      exact ⟨{ pc with closed := true }, rfl, rfl, id, fun _ => rfl⟩
    · rw [if_neg hk]
      exact ⟨pc, rfl, rfl, id, id⟩
  · intro k pc pc' hpc hpc'
    rw [getElem?_modify_ite, hpc] at hpc'
    split_ifs at hpc'
    · cases hpc'
      rfl
    · cases hpc'
      rfl
  · intro pc' hpc'
    rw [getElem?_modify_ite, if_pos rfl] at hpc'
    obtain ⟨pc, -, rfl⟩ := Option.map_eq_some_iff.mp hpc'
    rfl

/-- A task closes a connection. -/
theorem Inv.close (h : s.Inv) (ht : s.tasks[i]? = some t) {conn : ℕ}
    (hcloses : ∀ k, t.closes k = true ∨ t.holds k = true → k = conn ∨ t'.closes k = true)
    (hholds : ∀ k, t'.holds k = false) (hknows : s.Knows t') (hremoves : ∀ p, t.removes p = false) :
    ((s.closePc conn).goTo i t').Inv := by
  obtain ⟨hgrown, hsame, hclosed⟩ := closePc_grown s conn
  refine h.move ht rfl hgrown hsame rfl rfl rfl rfl id ?_ ?_ ?_ ?_
  · intro k hk
    rcases hcloses k hk with rfl | hby
    · exact .inl hclosed
    · exact .inr (.inl hby)
  · intro k hk
    rw [hholds k] at hk
    cases hk
  · refine hknows.frame hgrown ?_ rfl (fun _ _ hk => hk) (fun _ _ hd => hd) id
    intro k pc pc' _ hpc hpc' huntracked
    rw [hsame.2 k pc pc' hpc hpc']
    exact huntracked
  · intro p hp
    rw [hremoves p] at hp
    cases hp

/-! ### Tasks that start -/

theorem Inv.start (h : s.Inv) (hknows : s.Knows t) (hholds : ∀ k, t.holds k = false)
    (hremoves : ∀ p, t.removes p = false) : (s.start t).Inv := by
  have hmem : ∀ u, u ∈ (s.start t).tasks → u ∈ s.tasks ∨ u = t := fun u hu => by
    simpa [Mesh.start] using hu
  refine ⟨h.capped, h.current, ?_, ?_, ?_, h.wired, h.few, ?_⟩
  · intro k pc hpc
    rcases h.accounted k pc hpc with hcurrent | hclosed | ⟨u, hu, hby⟩
    · exact .inl hcurrent
    · exact .inr (.inl hclosed)
    · exact .inr (.inr ⟨u, List.mem_append_left _ hu, hby⟩)
  · intro u hu
    have hframe : ∀ u, s.Knows u → (s.start t).Knows u := fun u hu =>
      ⟨hu.fresh, hu.bare, hu.dropped, hu.flag, hu.clear, hu.silent, hu.buried⟩
    rcases hmem u hu with hold | rfl
    · exact hframe u (h.knows u hold)
    · exact hframe u hknows
  · intro i j u u' k hi hj hu hu'
    rcases get_append_cases hi with hold | ⟨-, rfl⟩
    · rcases get_append_cases hj with hold' | ⟨-, rfl⟩
      · exact h.single i j u u' k hold hold' hu hu'
      · rw [hholds k] at hu'
        cases hu'
    · rw [hholds k] at hu
      cases hu
  · intro p hp
    have hnot : ¬ s.Removing p := by
      rintro ⟨u, hu, hr⟩
      exact hp ⟨u, List.mem_append_left _ hu, hr⟩
    exact (h.settled p hnot).frame rfl rfl rfl rfl

/-! ### Connections come and go -/

/-- `new_pc` builds a connection. -/
theorem Inv.build (h : s.Inv) {peer : ℕ} {dial : Bool} (ht : s.tasks[i]? = some (.build peer dial)) :
    (({ s with pcs := s.pcs ++ [⟨peer, false, false⟩] } : Mesh).goTo i (.insert peer s.pcs.length dial)).Inv := by
  set s' : Mesh := ({ s with pcs := s.pcs ++ [⟨peer, false, false⟩] } : Mesh).goTo i (.insert peer s.pcs.length dial)
    with hs'
  have htasks : s'.tasks = s.tasks.set i (.insert peer s.pcs.length dial) := rfl
  have hold : ∀ (k : ℕ) (pc : PeerConn), s.pcs[k]? = some pc → s'.pcs[k]? = some pc := by
    intro k pc hpc
    have hlt : k < s.pcs.length := (List.getElem?_eq_some_iff.mp hpc).1
    change (s.pcs ++ [⟨peer, false, false⟩])[k]? = some pc
    rw [List.getElem?_append_left hlt]
    exact hpc
  have hgrown : Grown s.pcs s'.pcs := fun k pc hpc => ⟨pc, hold k pc hpc, rfl, id, id⟩
  have hnobody : ∀ u ∈ s.tasks, u.holds s.pcs.length = false := by
    intro u hu
    cases u with
    | insert p k d =>
      obtain ⟨pc, hpc, -, -⟩ := (h.knows _ hu).fresh p k d rfl
      have hlt : k < s.pcs.length := (List.getElem?_eq_some_iff.mp hpc).1
      have hne : k ≠ s.pcs.length := by omega
      simpa [MeshTask.holds] using hne
    | _ => rfl
  refine ⟨h.capped, ?_, ?_, ?_, single_of_set h ht htasks ?_, ?_, h.few, ?_⟩
  · intro p k hk
    obtain ⟨pc, hpc, hpeer, htracked⟩ := h.current p k hk
    exact ⟨pc, hold k pc hpc, hpeer, htracked⟩
  · intro k pc hpc
    rcases get_append_cases hpc with hbefore | ⟨rfl, rfl⟩
    · rcases h.accounted k pc hbefore with hcurrent | hclosed | ⟨u, hu, hby⟩
      · exact .inl hcurrent
      · exact .inr (.inl hclosed)
      · rcases eq_or_mem_of_set ht htasks hu with rfl | hstill
        · simp [MeshTask.closes, MeshTask.holds] at hby
        · exact .inr (.inr ⟨u, hstill, hby⟩)
    · exact .inr (.inr ⟨_, mem_set_of_get ht htasks, .inr (by simp [MeshTask.holds])⟩)
  · intro u hu
    rcases List.mem_or_eq_of_mem_set hu with hbefore | rfl
    · refine (h.knows u hbefore).frame hgrown ?_ rfl (fun _ _ hk => hk) (fun _ _ hd => hd) id
      intro k pc pc' _ hpc hpc' huntracked
      rw [hold k pc hpc] at hpc'
      cases hpc'
      exact huntracked
    · refine ⟨?_, by simp [MeshTask.removes], by simp [MeshTask.dropping], by simp [MeshTask.flagged],
        by simp [MeshTask.cleared], by simp [MeshTask.silenced], by simp [MeshTask.buries]⟩
      intro p k d heq
      cases heq
      have hlast : (s.pcs ++ [⟨peer, false, false⟩])[s.pcs.length]? = some ⟨peer, false, false⟩ := by simp
      exact ⟨⟨peer, false, false⟩, hlast, rfl, rfl⟩
  · intro k hk
    have : s.pcs.length = k := by simpa [MeshTask.holds] using hk
    subst this
    exact .inr hnobody
  · intro c hc
    obtain ⟨pc, hpc, htracked⟩ := h.wired c hc
    exact ⟨pc, hold _ pc hpc, htracked⟩
  · intro p hp
    have hnot := not_removing_of_set ht htasks (by simp [MeshTask.removes]) hp
    exact (h.settled p hnot).frame rfl rfl rfl rfl

/-- `new_pc` puts the connection in the map, over no other. -/
theorem Inv.insert (h : s.Inv) {peer conn : ℕ} {dial : Bool} (ht : s.tasks[i]? = some (.insert peer conn dial))
    (hopen : s.closed = false) (hnone : s.conns.lookup peer = none)
    (hroom : s.conns.entries.length < meshMaxConns) (hplain : t'.plain = true) :
    (({ s with
        conns := s.conns.insert peer conn
        pcs := s.pcs.modify conn fun pc => { pc with tracked := true } } : Mesh).goTo i t').Inv := by
  set s' : Mesh := ({ s with
      conns := s.conns.insert peer conn
      pcs := s.pcs.modify conn fun pc => { pc with tracked := true } } : Mesh).goTo i t' with hs'
  have htasks : s'.tasks = s.tasks.set i t' := rfl
  have hlookup : ∀ p, s'.conns.lookup p = if p = peer then some conn else s.conns.lookup p :=
    fun p => Table.lookup_insert_ite s.conns peer p conn
  have hget : ∀ k, s'.pcs[k]? = if conn = k then s.pcs[k]?.map fun pc => { pc with tracked := true } else s.pcs[k]? :=
    fun k => getElem?_modify_ite s.pcs conn k _
  obtain ⟨own, hown, hownpeer, hownfresh⟩ := (h.knows _ (List.mem_of_getElem? ht)).fresh peer conn dial rfl
  have hgrown : Grown s.pcs s'.pcs := by
    intro k pc hpc
    rw [hget, hpc]
    by_cases hk : conn = k
    · rw [if_pos hk]
      exact ⟨{ pc with tracked := true }, rfl, rfl, fun _ => rfl, id⟩
    · rw [if_neg hk]
      exact ⟨pc, rfl, rfl, id, id⟩
  -- A connection that was in nobody's map has no channels.
  have hbarren : ∀ c ∈ s.chans, c.conn ≠ conn := by
    intro c hc heq
    obtain ⟨pc, hpc, htracked⟩ := h.wired c hc
    rw [heq, hown] at hpc
    cases hpc
    rw [hownfresh] at htracked
    cases htracked
  have honly : ∀ u ∈ s'.tasks, u.holds conn = false := by
    intro u hu
    obtain ⟨j, hj⟩ := List.getElem?_of_mem hu
    rw [htasks] at hj
    rcases get_set_cases hj with ⟨-, rfl⟩ | ⟨hne, hold⟩
    · cases u with
      | insert p k d => cases hplain
      | _ => rfl
    · by_contra hholds
      exact hne (h.single j i u _ conn hold ht (by simpa using hholds) (by simp [MeshTask.holds]))
  refine ⟨?_, ?_, ?_, ?_, single_of_set h ht htasks ?_, ?_, h.few, ?_⟩
  · change (s.conns.insert peer conn).entries.length ≤ meshMaxConns
    rw [Table.length_insert conn hnone]
    omega
  · intro p k hk
    rw [hlookup] at hk
    by_cases hp : p = peer
    · rw [if_pos hp] at hk
      cases hk
      refine ⟨{ own with tracked := true }, by rw [hget, if_pos rfl, hown]; rfl, ?_, rfl⟩
      exact hownpeer.trans hp.symm
    · rw [if_neg hp] at hk
      obtain ⟨pc, hpc, hpeer, htracked⟩ := h.current p k hk
      obtain ⟨pc', hpc', hpeer', hkeep, -⟩ := hgrown k pc hpc
      exact ⟨pc', hpc', hpeer'.trans hpeer, hkeep htracked⟩
  · intro k pc' hpc'
    rw [hget] at hpc'
    by_cases hk : conn = k
    · subst hk
      rw [if_pos rfl, hown] at hpc'
      cases hpc'
      left
      rw [hlookup, if_pos hownpeer]
    · rw [if_neg hk] at hpc'
      rcases h.accounted k pc' hpc' with hcurrent | hclosed | ⟨u, hu, hby⟩
      · left
        rw [hlookup, if_neg fun heq => ?_]
        · exact hcurrent
        · rw [heq, hnone] at hcurrent
          cases hcurrent
      · exact .inr (.inl hclosed)
      · rcases eq_or_mem_of_set ht htasks hu with rfl | hstill
        · simp [MeshTask.closes, MeshTask.holds, hk] at hby
        · exact .inr (.inr ⟨u, hstill, hby⟩)
  · intro u hu
    rcases List.mem_or_eq_of_mem_set hu with hold | rfl
    · have hknows := h.knows u hold
      refine ⟨?_, ?_, hknows.dropped, hknows.flag, ?_, hknows.silent, ?_⟩
      · intro p k d heq
        obtain ⟨pc, hpc, hpeer, huntracked⟩ := hknows.fresh p k d heq
        have hne : conn ≠ k := by
          intro hck
          have := honly u hu
          rw [heq, hck] at this
          simp [MeshTask.holds] at this
        exact ⟨pc, by rw [hget, if_neg hne]; exact hpc, hpeer, huntracked⟩
      · intro p hremoves c hc hpeer hcurrent
        rw [hlookup] at hcurrent
        by_cases hp : p = peer
        · rw [if_pos hp] at hcurrent
          exact hbarren c hc (Option.some.inj hcurrent).symm
        · rw [if_neg hp] at hcurrent
          exact hknows.bare p hremoves c hc hpeer hcurrent
      · intro hcleared
        have hflag : u.flagged = true := by
          cases u with
          | shutChannels ks => rfl
          | shutIngress ks => rfl
          | shutClose ks => rfl
          | shut => rfl
          | _ => cases hcleared
        have := hknows.flag hflag
        rw [hopen] at this
        cases this
      · intro k hburies
        obtain ⟨pc, hpc, hclosed⟩ := hknows.buried k hburies
        obtain ⟨pc', hpc', -, -, hkeep⟩ := hgrown k pc hpc
        exact ⟨pc', hpc', hkeep hclosed⟩
    · exact knows_plain hplain
  · intro k hk
    cases t' with
    | insert p k d => cases hplain
    | _ => cases hk
  · intro c hc
    obtain ⟨pc, hpc, htracked⟩ := h.wired c hc
    obtain ⟨pc', hpc', -, hkeep, -⟩ := hgrown c.conn pc hpc
    exact ⟨pc', hpc', hkeep htracked⟩
  · intro p hp
    have hsettled := h.settled p (not_removing_of_set ht htasks (by simp [MeshTask.removes]) hp)
    by_cases hpeer : p = peer
    · subst hpeer
      have hempty : s.onCurrent p = [] := by
        rw [onCurrent, List.filter_eq_nil_iff]
        intro c _
        simp [hnone]
      refine Settled.of_empty ?_ ?_ ?_
      · cases hd : s.channels.lookup p with
        | none => exact hd
        | some d =>
          obtain ⟨c, -, -, hcurrent⟩ := hsettled.channel d hd
          rw [hnone] at hcurrent
          cases hcurrent
      · have hcounted := hsettled.counted
        rw [hempty] at hcounted
        exact hcounted
      · rw [onCurrent, List.filter_eq_nil_iff]
        intro c hc
        have hne := hbarren c hc
        have hlook := hlookup p
        rw [if_pos rfl] at hlook
        simp only [hlook, Option.some.injEq, decide_eq_true_eq, not_and]
        intro _ heq
        exact absurd heq.symm hne
    · exact hsettled.frame (by rw [hlookup, if_neg hpeer]) rfl rfl rfl

/-! ### Removals -/

theorem Inv.forgetConn (h : s.Inv) {peer conn : ℕ} {why : Removal} (ht : s.tasks[i]? = some (.forget peer conn why))
    (hcurrent : s.conns.lookup peer = some conn) :
    (({ s with conns := s.conns.erase peer } : Mesh).goTo i (.forgetChannel peer conn why)).Inv := by
  have hlookup : ∀ p, (s.conns.erase peer).lookup p = if p = peer then none else s.conns.lookup p :=
    fun p => Table.lookup_erase_ite s.conns peer p
  have hknows := h.knows _ (List.mem_of_getElem? ht)
  refine h.next ht rfl (Grown.refl _) (sameTracked_refl _ _ rfl) rfl ?_ ?_ (fun _ _ hd => hd) (fun _ => le_rfl) id
    ?_ ?_ ?_ ?_
  · have := Table.length_erase hcurrent
    change (s.conns.erase peer).entries.length ≤ s.conns.entries.length
    omega
  · intro p k hk
    change (s.conns.erase peer).lookup p = some k at hk
    rw [hlookup] at hk
    split_ifs at hk
    exact hk
  · intro k pc hpc hby
    rcases hby with hcurrent' | hby
    · by_cases hp : pc.peer = peer
      · -- The connection that goes is closed later, unless it is closed.
        rw [hp, hcurrent] at hcurrent'
        cases hcurrent'
        by_cases hwhy : why = .closed
        · subst hwhy
          obtain ⟨pc', hpc', hclosed⟩ := hknows.buried conn (by simp [MeshTask.buries])
          right
          left
          intro pc'' hpc''
          change s.pcs[conn]? = some pc'' at hpc''
          rw [hpc'] at hpc''
          cases hpc''
          exact hclosed
        · exact .inr (.inr (.inl (by simp [MeshTask.closes, hwhy])))
      · left
        change (s.conns.erase peer).lookup pc.peer = some k
        rw [hlookup, if_neg hp]
        exact hcurrent'
    · right
      right
      left
      simp only [MeshTask.closes, MeshTask.holds, Bool.and_eq_true, decide_eq_true_eq, Bool.false_eq_true,
        or_false] at hby
      simp [MeshTask.closes, hby.1, hby.2]
  · intro k hk
    cases hk
  · refine ⟨by simp, ?_, by simp [MeshTask.dropping], by simp [MeshTask.flagged], by simp [MeshTask.cleared],
      by simp [MeshTask.silenced], ?_⟩
    · intro p hremoves c _ _ hcur
      have hp : peer = p := by simpa [MeshTask.removes] using hremoves
      change (s.conns.erase peer).lookup p = some c.conn at hcur
      rw [hlookup, if_pos hp.symm] at hcur
      cases hcur
    · intro k hburies
      exact hknows.buried k hburies
  · intro p hp
    have hne : p ≠ peer := by
      rintro rfl
      exact hp ⟨.forgetChannel p conn why, mem_set_of_get ht rfl, by simp [MeshTask.removes]⟩
    have hsettled := h.settled p (not_removing_of_set ht rfl (by simp [MeshTask.removes]) hp)
    refine hsettled.frame ?_ rfl rfl rfl
    change (s.conns.erase peer).lookup p = s.conns.lookup p
    rw [hlookup, if_neg hne]

theorem Inv.forgetChannel (h : s.Inv) {peer conn : ℕ} {why : Removal}
    (ht : s.tasks[i]? = some (.forgetChannel peer conn why)) :
    (({ s with channels := s.channels.erase peer } : Mesh).goTo i (.forgetIngress peer conn why)).Inv := by
  have hlookup : ∀ p, (s.channels.erase peer).lookup p = if p = peer then none else s.channels.lookup p :=
    fun p => Table.lookup_erase_ite s.channels peer p
  have hknows := h.knows _ (List.mem_of_getElem? ht)
  refine h.next ht rfl (Grown.refl _) (sameTracked_refl _ _ rfl) rfl le_rfl (fun _ _ hk => hk) ?_ (fun _ => le_rfl) id
    ?_ ?_ ?_ ?_
  · intro p d hd
    change (s.channels.erase peer).lookup p = some d at hd
    rw [hlookup] at hd
    split_ifs at hd
    exact hd
  · intro k pc hpc hby
    rcases hby with hcurrent | hby
    · exact .inl hcurrent
    · exact .inr (.inr hby)
  · intro k hk
    cases hk
  · refine ⟨by simp, hknows.bare, ?_, by simp [MeshTask.flagged], by simp [MeshTask.cleared],
      by simp [MeshTask.silenced], hknows.buried⟩
    intro p hdropping
    have hp : peer = p := by simpa [MeshTask.dropping] using hdropping
    change (s.channels.erase peer).lookup p = none
    rw [hlookup, if_pos hp.symm]
  · intro p hp
    have hne : p ≠ peer := by
      rintro rfl
      exact hp ⟨.forgetIngress p conn why, mem_set_of_get ht rfl, by simp [MeshTask.removes]⟩
    have hsettled := h.settled p (not_removing_of_set ht rfl (by simp [MeshTask.removes]) hp)
    refine hsettled.frame rfl ?_ rfl rfl
    change (s.channels.erase peer).lookup p = s.channels.lookup p
    rw [hlookup, if_neg hne]

/-- After its last section a removal leaves nothing of the peer behind. -/
theorem Inv.forgetIngress (h : s.Inv) {peer conn : ℕ} {why : Removal}
    (ht : s.tasks[i]? = some (.forgetIngress peer conn why)) :
    (({ s with ingress := s.ingress.erase peer } : Mesh).goTo i
      (if why = Removal.closed then .done else .close conn)).Inv := by
  have hlookup : ∀ p, (s.ingress.erase peer).lookup p = if p = peer then none else s.ingress.lookup p :=
    fun p => Table.lookup_erase_ite s.ingress peer p
  have hmem := List.mem_of_getElem? ht
  have hknows := h.knows _ hmem
  have hremoving : s.Removing peer := ⟨_, hmem, by simp [MeshTask.removes]⟩
  refine h.next ht rfl (Grown.refl _) (sameTracked_refl _ _ rfl) rfl le_rfl (fun _ _ hk => hk) (fun _ _ hd => hd) ?_ id
    ?_ ?_ ?_ ?_
  · intro p
    change (((s.ingress.erase peer).lookup p).map (·.liveChannels)).getD 0 ≤ s.liveChannels p
    rw [hlookup]
    split_ifs
    · exact Nat.zero_le _
    · exact le_rfl
  · intro k pc hpc hby
    rcases hby with hcurrent | hby
    · exact .inl hcurrent
    · simp only [MeshTask.closes, MeshTask.holds, Bool.and_eq_true, decide_eq_true_eq, ne_eq, Bool.false_eq_true,
        or_false] at hby
      rw [if_neg hby.2]
      exact .inr (.inr (.inl (by simp [MeshTask.closes, hby.1])))
  · intro k hk
    split_ifs at hk
    · cases hk
    · cases hk
  · apply knows_plain
    split_ifs
    · rfl
    · rfl
  · intro p hp
    by_cases hpeer : p = peer
    · subst hpeer
      refine Settled.of_empty (hknows.dropped p (by simp [MeshTask.dropping])) ?_ (h.onCurrent_nil hremoving)
      change (((s.ingress.erase p).lookup p).map (·.liveChannels)).getD 0 = 0
      rw [hlookup, if_pos rfl]
      rfl
    · have hnot : (MeshTask.forgetIngress peer conn why).removes p = false := by
        simpa [MeshTask.removes] using fun heq => hpeer heq.symm
      have hsettled := h.settled p (not_removing_of_set ht rfl (by simp [hnot]) hp)
      refine hsettled.frame rfl rfl ?_ rfl
      change (s.ingress.erase peer).lookup p = s.ingress.lookup p
      rw [hlookup, if_neg hpeer]

/-! ### The kill switch -/

theorem Inv.shutFlag (h : s.Inv) (ht : s.tasks[i]? = some .shutFlag) :
    (({ s with closed := true } : Mesh).goTo i .shutConns).Inv := by
  refine h.move ht rfl (Grown.refl _) (sameTracked_refl _ _ rfl) rfl rfl rfl rfl (fun _ => rfl) ?_ ?_ ?_ ?_
  · intro k hk
    simp [MeshTask.closes, MeshTask.holds] at hk
  · intro k hk
    cases hk
  · exact ⟨by simp, by simp [MeshTask.removes], by simp [MeshTask.dropping], fun _ => rfl, by simp [MeshTask.cleared],
      by simp [MeshTask.silenced], by simp [MeshTask.buries]⟩
  · intro p hp
    cases hp

theorem lookup_empty {ν : Type} (p : ℕ) : (∅ : Table ℕ ν).lookup p = none := AList.lookup_empty p

theorem Inv.shutConns (h : s.Inv) (ht : s.tasks[i]? = some .shutConns) :
    (({ s with conns := ∅ } : Mesh).goTo i (.shutChannels s.conns.values)).Inv := by
  refine h.next ht rfl (Grown.refl _) (sameTracked_refl _ _ rfl) rfl (Nat.zero_le _) ?_ (fun _ _ hd => hd)
    (fun _ => le_rfl) id ?_ ?_ ?_ ?_
  · intro p k hk
    change (∅ : Table ℕ ℕ).lookup p = some k at hk
    rw [lookup_empty] at hk
    cases hk
  · intro k pc hpc hby
    rcases hby with hcurrent | hby
    · refine .inr (.inr (.inl ?_))
      simp only [MeshTask.closes, decide_eq_true_eq]
      exact Table.mem_values.mpr ⟨pc.peer, hcurrent⟩
    · simp [MeshTask.closes, MeshTask.holds] at hby
  · intro k hk
    cases hk
  · refine ⟨by simp, ?_, by simp [MeshTask.dropping], ?_, fun _ p => lookup_empty p, by simp [MeshTask.silenced],
      by simp [MeshTask.buries]⟩
    · intro p _ c _ _ hcur
      change (∅ : Table ℕ ℕ).lookup p = some c.conn at hcur
      rw [lookup_empty] at hcur
      cases hcur
    · intro _
      exact (h.knows _ (List.mem_of_getElem? ht)).flag rfl
  · intro p hp
    exact absurd ⟨_, mem_set_of_get ht rfl, rfl⟩ hp

theorem Inv.shutChannels (h : s.Inv) {conns : List ℕ} (ht : s.tasks[i]? = some (.shutChannels conns)) :
    (({ s with channels := ∅ } : Mesh).goTo i (.shutIngress conns)).Inv := by
  have hknows := h.knows _ (List.mem_of_getElem? ht)
  refine h.next ht rfl (Grown.refl _) (sameTracked_refl _ _ rfl) rfl le_rfl (fun _ _ hk => hk) ?_
    (fun _ => le_rfl) id ?_ ?_ ?_ ?_
  · intro p d hd
    change (∅ : Table ℕ ℕ).lookup p = some d at hd
    rw [lookup_empty] at hd
    cases hd
  · intro k pc hpc hby
    rcases hby with hcurrent | hby
    · exact .inl hcurrent
    · exact .inr (.inr hby)
  · intro k hk
    cases hk
  · exact ⟨by simp, hknows.bare, fun p _ => lookup_empty p, fun _ => hknows.flag rfl, fun _ => hknows.clear rfl,
      fun _ p => lookup_empty p, by simp [MeshTask.buries]⟩
  · intro p hp
    exact absurd ⟨_, mem_set_of_get ht rfl, rfl⟩ hp

theorem Inv.shutIngress (h : s.Inv) {conns : List ℕ} (ht : s.tasks[i]? = some (.shutIngress conns)) :
    (({ s with ingress := ∅ } : Mesh).goTo i (.shutClose conns)).Inv := by
  have hmem := List.mem_of_getElem? ht
  have hknows := h.knows _ hmem
  have hlive : ∀ p, (({ s with ingress := ∅ } : Mesh).goTo i (.shutClose conns)).liveChannels p = 0 := by
    intro p
    change (((∅ : Table ℕ PeerIngress).lookup p).map (·.liveChannels)).getD 0 = 0
    rw [lookup_empty]
    rfl
  refine h.next ht rfl (Grown.refl _) (sameTracked_refl _ _ rfl) rfl le_rfl (fun _ _ hk => hk) (fun _ _ hd => hd) ?_ id
    ?_ ?_ ?_ ?_
  · intro p
    rw [hlive]
    exact Nat.zero_le _
  · intro k pc hpc hby
    rcases hby with hcurrent | hby
    · exact .inl hcurrent
    · exact .inr (.inr hby)
  · intro k hk
    cases hk
  · exact ⟨by simp, by simp [MeshTask.removes], by simp [MeshTask.dropping], fun _ => hknows.flag rfl,
      fun _ => hknows.clear rfl, fun _ => hknows.silent rfl, by simp [MeshTask.buries]⟩
  · intro p _
    exact Settled.of_empty (hknows.silent rfl p) (hlive p) (h.onCurrent_nil ⟨_, hmem, rfl⟩)

/-! ### Channels -/

theorem removes_of_dropping {peer : ℕ} (h : t.dropping peer = true) : t.removes peer = true := by
  cases t with
  | forgetIngress p k why => exact h
  | shutIngress conns => rfl
  | _ => cases h

theorem cleared_of_silenced (h : t.silenced = true) : t.cleared = true := by
  cases t with
  | shutIngress conns => rfl
  | shutClose conns => rfl
  | shut => rfl
  | _ => cases h

theorem ingressEntry_live (s : Mesh) (peer : ℕ) : (s.ingressEntry peer).liveChannels = s.liveChannels peer := by
  unfold ingressEntry liveChannels
  cases s.ingress.lookup peer with
  | none => rfl
  | some entry => rfl

/-- At the cap, nothing is registered. -/
theorem registerChannel_full {peer conn : ℕ} (h : meshMaxChannelsPerPeer ≤ s.liveChannels peer) :
    s.registerChannel peer conn = none := by
  rw [← ingressEntry_live] at h
  exact if_pos h

theorem registerChannel_tasks {peer conn : ℕ} (h : s.registerChannel peer conn = some s') : s'.tasks = s.tasks := by
  unfold registerChannel at h
  simp only at h
  by_cases hfull : meshMaxChannelsPerPeer ≤ (s.ingressEntry peer).liveChannels
  · rw [if_pos hfull] at h
    cases h
  · rw [if_neg hfull] at h
    cases h
    rfl

theorem Inv.register (h : s.Inv) {peer conn : ℕ} (hcurrent : s.conns.lookup peer = some conn)
    (hnot : ¬ s.Removing peer) (hreg : s.registerChannel peer conn = some s') : s'.Inv := by
  have hlive := ingressEntry_live s peer
  unfold registerChannel at hreg
  simp only at hreg
  by_cases hfull : meshMaxChannelsPerPeer ≤ (s.ingressEntry peer).liveChannels
  · rw [if_pos hfull] at hreg
    cases hreg
  rw [if_neg hfull] at hreg
  cases hreg
  set entry := s.ingressEntry peer with hentry
  set new : MeshChannel := ⟨peer, conn, entry.bucket, false⟩ with hnew
  have hlookup : ∀ p, (s.ingress.insert peer ⟨entry.bucket, entry.liveChannels + 1⟩).lookup p =
      if p = peer then some ⟨entry.bucket, entry.liveChannels + 1⟩ else s.ingress.lookup p :=
    fun p => Table.lookup_insert_ite s.ingress peer p _
  have hmem : ∀ c, c ∈ s.chans ++ [new] → c ∈ s.chans ∨ c = new := fun c hc => by simpa using hc
  refine ⟨h.capped, h.current, h.accounted, ?_, h.single, ?_, ?_, ?_⟩
  · intro u hu
    have hknows := h.knows u hu
    refine ⟨hknows.fresh, ?_, hknows.dropped, hknows.flag, hknows.clear, hknows.silent, hknows.buried⟩
    intro p hremoves c hc hpeer
    rcases hmem c hc with hold | rfl
    · exact hknows.bare p hremoves c hold hpeer
    · cases hpeer
      exact absurd ⟨u, hu, hremoves⟩ hnot
  · intro c hc
    rcases hmem c hc with hold | rfl
    · exact h.wired c hold
    · obtain ⟨pc, hpc, -, htracked⟩ := h.current peer conn hcurrent
      exact ⟨pc, hpc, htracked⟩
  · intro p
    change (((s.ingress.insert peer _).lookup p).map (·.liveChannels)).getD 0 ≤ meshMaxChannelsPerPeer
    rw [hlookup]
    by_cases hp : p = peer
    · rw [if_pos hp]
      exact Nat.lt_of_not_le hfull
    · rw [if_neg hp]
      exact h.few p
  · intro p hp
    have hsettled := h.settled p hp
    have hchannel : ∀ d, s.channels.lookup p = some d →
        ∃ c, (s.chans ++ [new])[d]? = some c ∧ c.peer = p ∧ s.conns.lookup p = some c.conn := by
      intro d hd
      obtain ⟨c, hc, hpeer, hcur⟩ := hsettled.channel d hd
      have hlt : d < s.chans.length := (List.getElem?_eq_some_iff.mp hc).1
      exact ⟨c, by rw [List.getElem?_append_left hlt]; exact hc, hpeer, hcur⟩
    by_cases hpeer : p = peer
    · subst hpeer
      have hon : (s.chans ++ [new]).filter (fun c => c.peer = p ∧ s.conns.lookup p = some c.conn ∧ c.closed = false) =
          s.onCurrent p ++ [new] := by
        rw [List.filter_append, List.filter_singleton]
        simp [onCurrent, hnew, hcurrent]
      refine ⟨hchannel, ?_, ?_⟩
      · change (((s.ingress.insert p _).lookup p).map (·.liveChannels)).getD 0 = (List.filter _ _).length
        rw [hlookup, if_pos rfl, hon, List.length_append, ← hsettled.counted, ← hlive]
        rfl
      · intro c hc
        change c ∈ List.filter _ _ at hc
        change ((s.ingress.insert p _).lookup p).map (·.bucket) = some c.bucket
        rw [hon] at hc
        rw [hlookup, if_pos rfl]
        rcases List.mem_append.mp hc with hold | hlast
        · -- An entry with a channel is there already, so its bucket is kept.
          obtain ⟨e, he, hbucket⟩ := Option.map_eq_some_iff.mp (hsettled.bucket c hold)
          rw [hentry, ingressEntry, he]
          exact congrArg some hbucket
        · rw [List.mem_singleton.mp hlast]
          rfl
    · have hon : (s.chans ++ [new]).filter (fun c => c.peer = p ∧ s.conns.lookup p = some c.conn ∧ c.closed = false) =
          s.onCurrent p := by
        have hne : ¬ peer = p := fun heq => hpeer heq.symm
        rw [List.filter_append, List.filter_singleton]
        simp [onCurrent, hnew, hne]
      refine ⟨hchannel, ?_, ?_⟩
      · change (((s.ingress.insert peer _).lookup p).map (·.liveChannels)).getD 0 = (List.filter _ _).length
        rw [hlookup, if_neg hpeer, hon]
        exact hsettled.counted
      · intro c hc
        change c ∈ List.filter _ _ at hc
        change ((s.ingress.insert peer _).lookup p).map (·.bucket) = some c.bucket
        rw [hon] at hc
        rw [hlookup, if_neg hpeer]
        exact hsettled.bucket c hc

/-- A channel of the current connection opens. -/
theorem Inv.opened (h : s.Inv) {d : ℕ} {c : MeshChannel} (hc : s.chans[d]? = some c)
    (hcurrent : s.conns.lookup c.peer = some c.conn) :
    ({ s with channels := s.channels.insert c.peer d } : Mesh).Inv := by
  have hlookup : ∀ p, (s.channels.insert c.peer d).lookup p = if p = c.peer then some d else s.channels.lookup p :=
    fun p => Table.lookup_insert_ite s.channels c.peer p d
  have hmem := List.mem_of_getElem? hc
  refine ⟨h.capped, h.current, h.accounted, ?_, h.single, h.wired, h.few, ?_⟩
  · intro u hu
    have hknows := h.knows u hu
    refine ⟨hknows.fresh, hknows.bare, ?_, hknows.flag, hknows.clear, ?_, hknows.buried⟩
    · intro p hdropping
      have hne : p ≠ c.peer := by
        rintro rfl
        exact hknows.bare _ (removes_of_dropping hdropping) c hmem rfl hcurrent
      change (s.channels.insert c.peer d).lookup p = none
      rw [hlookup, if_neg hne]
      exact hknows.dropped p hdropping
    · intro hsilenced
      have hnone := hknows.clear (cleared_of_silenced hsilenced) c.peer
      rw [hcurrent] at hnone
      cases hnone
  · intro p hp
    have hsettled := h.settled p hp
    refine ⟨?_, hsettled.counted, hsettled.bucket⟩
    intro d' hd'
    change (s.channels.insert c.peer d).lookup p = some d' at hd'
    rw [hlookup] at hd'
    by_cases hpeer : p = c.peer
    · rw [if_pos hpeer] at hd'
      cases hd'
      subst hpeer
      exact ⟨c, hc, rfl, hcurrent⟩
    · rw [if_neg hpeer] at hd'
      exact hsettled.channel d' hd'

theorem lookup_releaseSlot (s : Mesh) (peer p : ℕ) : (s.releaseSlot peer).ingress.lookup p =
    if p = peer then (s.ingress.lookup p).map fun e => { e with liveChannels := e.liveChannels - 1 }
    else s.ingress.lookup p := by
  unfold releaseSlot
  cases he : s.ingress.lookup peer with
  | none =>
    by_cases hp : p = peer
    · subst hp
      simp [he]
    · simp [hp]
  | some entry =>
    change (s.ingress.insert peer _).lookup p = _
    rw [Table.lookup_insert_ite]
    by_cases hp : p = peer
    · subst hp
      simp [he]
    · simp [hp]

theorem liveChannels_releaseSlot (s : Mesh) (peer p : ℕ) : (s.releaseSlot peer).liveChannels p =
    if p = peer then s.liveChannels p - 1 else s.liveChannels p := by
  unfold liveChannels
  rw [lookup_releaseSlot]
  by_cases hp : p = peer
  · rw [if_pos hp, if_pos hp]
    cases s.ingress.lookup p with
    | none => rfl
    | some entry => rfl
  · rw [if_neg hp, if_neg hp]

theorem releaseSlot_frame (s : Mesh) (peer : ℕ) : (s.releaseSlot peer).pcs = s.pcs ∧
    (s.releaseSlot peer).conns = s.conns ∧ (s.releaseSlot peer).channels = s.channels ∧
      (s.releaseSlot peer).closed = s.closed ∧ (s.releaseSlot peer).tasks = s.tasks := by
  unfold releaseSlot
  cases s.ingress.lookup peer with
  | none => exact ⟨rfl, rfl, rfl, rfl, rfl⟩
  | some entry => exact ⟨rfl, rfl, rfl, rfl, rfl⟩

/-- One channel's record changes to closed. -/
theorem length_onCurrent_close (peer : ℕ) {d : ℕ} {c : MeshChannel} (hc : s.chans[d]? = some c)
    (hopen : c.closed = false)
    (hchans : s'.chans = s.chans.set d { c with closed := true }) (hconns : s'.conns = s.conns) :
    (s'.onCurrent peer).length =
      (s.onCurrent peer).length - if c.peer = peer ∧ s.conns.lookup peer = some c.conn then 1 else 0 := by
  obtain ⟨hlt, hget⟩ := List.getElem?_eq_some_iff.mp hc
  unfold onCurrent
  rw [hchans, hconns, ← List.countP_eq_length_filter, ← List.countP_eq_length_filter, List.countP_set hlt, hget]
  simp [hopen]

theorem mem_onCurrent_close {d peer : ℕ} {c c' : MeshChannel}
    (hchans : s'.chans = s.chans.set d { c with closed := true }) (hconns : s'.conns = s.conns)
    (hc' : c' ∈ s'.onCurrent peer) : c' ∈ s.onCurrent peer := by
  unfold onCurrent at hc' ⊢
  rw [hchans, hconns] at hc'
  obtain ⟨hmem, hon⟩ := List.mem_filter.mp hc'
  rcases List.mem_or_eq_of_mem_set hmem with hold | rfl
  · exact List.mem_filter.mpr ⟨hold, hon⟩
  · simp at hon

/-- A channel closes that is on the current connection, or whose peer has no count left. -/
theorem Inv.closed (h : s.Inv) {d : ℕ} {c : MeshChannel} (hc : s.chans[d]? = some c) (hopen : c.closed = false)
    (hcount : s.conns.lookup c.peer = some c.conn ∨ s.liveChannels c.peer = 0) :
    ({ s.releaseSlot c.peer with chans := s.chans.set d { c with closed := true } } : Mesh).Inv := by
  set s' : Mesh := { s.releaseSlot c.peer with chans := s.chans.set d { c with closed := true } } with hs'
  obtain ⟨hpcs, hconns, hchannels, hclosed, htasks⟩ : s'.pcs = s.pcs ∧ s'.conns = s.conns ∧
      s'.channels = s.channels ∧ s'.closed = s.closed ∧ s'.tasks = s.tasks := releaseSlot_frame s c.peer
  have hchans : s'.chans = s.chans.set d { c with closed := true } := rfl
  have hlive : ∀ p, s'.liveChannels p = if p = c.peer then s.liveChannels p - 1 else s.liveChannels p :=
    liveChannels_releaseSlot s c.peer
  have hmem : ∀ c' ∈ s'.chans, ∃ c₀ ∈ s.chans, c₀.peer = c'.peer ∧ c₀.conn = c'.conn := by
    intro c' hc'
    rw [hchans] at hc'
    rcases List.mem_or_eq_of_mem_set hc' with hold | rfl
    · exact ⟨c', hold, rfl, rfl⟩
    · exact ⟨c, List.mem_of_getElem? hc, rfl, rfl⟩
  refine ⟨?_, ?_, ?_, ?_, ?_, ?_, ?_, ?_⟩
  · rw [hconns]
    exact h.capped
  · rw [hconns, hpcs]
    exact h.current
  · rw [hconns, hpcs, htasks]
    exact h.accounted
  · intro u hu
    rw [htasks] at hu
    have hknows := h.knows u hu
    refine ⟨?_, ?_, ?_, ?_, ?_, ?_, ?_⟩
    · rw [hpcs]
      exact hknows.fresh
    · intro p hremoves c' hc' hpeer
      obtain ⟨c₀, hc₀, hpeer₀, hconn₀⟩ := hmem c' hc'
      rw [hconns, ← hconn₀]
      exact hknows.bare p hremoves c₀ hc₀ (hpeer₀.trans hpeer)
    · rw [hchannels]
      exact hknows.dropped
    · rw [hclosed]
      exact hknows.flag
    · rw [hconns]
      exact hknows.clear
    · rw [hchannels]
      exact hknows.silent
    · rw [hpcs]
      exact hknows.buried
  · rw [htasks]
    exact h.single
  · intro c' hc'
    obtain ⟨c₀, hc₀, -, hconn₀⟩ := hmem c' hc'
    rw [hpcs, ← hconn₀]
    exact h.wired c₀ hc₀
  · intro p
    have hfew := h.few p
    rw [hlive]
    split_ifs
    · omega
    · exact hfew
  · intro p hp
    have hnot : ¬ s.Removing p := by
      rintro ⟨u, hu, hr⟩
      exact hp ⟨u, htasks ▸ hu, hr⟩
    have hsettled := h.settled p hnot
    have hlength := length_onCurrent_close p hc hopen hchans hconns
    refine ⟨?_, ?_, ?_⟩
    · intro d' hd'
      rw [hchannels] at hd'
      obtain ⟨c', hc', hpeer, hcur⟩ := hsettled.channel d' hd'
      rw [hchans, hconns]
      by_cases hdd : d = d'
      · subst hdd
        rw [hc] at hc'
        cases hc'
        refine ⟨{ c with closed := true }, ?_, hpeer, hcur⟩
        exact List.getElem?_set_self (List.getElem?_eq_some_iff.mp hc).1
      · exact ⟨c', by rw [List.getElem?_set_ne hdd]; exact hc', hpeer, hcur⟩
    · rw [hlive, hlength, hsettled.counted]
      by_cases hpeer : p = c.peer
      · subst hpeer
        rw [if_pos rfl]
        rcases hcount with hcurrent | hzero
        · rw [if_pos ⟨rfl, hcurrent⟩]
        · rw [hsettled.counted] at hzero
          rw [hzero, Nat.zero_sub, Nat.zero_sub]
      · rw [if_neg hpeer, if_neg fun hand => hpeer hand.1.symm, Nat.sub_zero]
    · intro c' hc'
      have hbucket := hsettled.bucket c' (mem_onCurrent_close hchans hconns hc')
      have hlookup : s'.ingress.lookup p = _ := lookup_releaseSlot s c.peer p
      rw [hlookup]
      by_cases hpeer : p = c.peer
      · rw [if_pos hpeer, Option.map_map]
        exact hbucket
      · rw [if_neg hpeer]
        exact hbucket

/-! ### Steps and runs -/

theorem inv_new (localId : ℕ) : (new localId).Inv := by
  have hconns : ∀ p, (new localId).conns.lookup p = none := fun p => lookup_empty p
  refine ⟨Nat.zero_le _, ?_, ?_, ?_, ?_, ?_, fun _ => Nat.zero_le _, ?_⟩
  · intro peer conn hcurrent
    rw [hconns] at hcurrent
    cases hcurrent
  · intro k pc hpc
    cases hpc
  · intro t ht
    cases ht
  · intro i j t t' k hi
    cases hi
  · intro c hc
    cases hc
  · intro p _
    exact Settled.of_empty (lookup_empty p) rfl rfl

theorem Inv.insertConn (h : s.Inv) {peer conn : ℕ} {dial : Bool} (ht : s.tasks[i]? = some (.insert peer conn dial))
    (horderly : s.closed = true ∨ s.conns.lookup peer = none) : (s.insertConn i peer conn dial).Inv := by
  have habort : (s.goTo i (.abort conn)).Inv :=
    h.goTo ht (by simp [MeshTask.closes, MeshTask.holds]) rfl (fun _ => rfl)
  unfold Mesh.insertConn
  by_cases hclosed : s.closed = true
  · rw [if_pos hclosed]
    exact habort
  rw [if_neg hclosed]
  have hnone : s.conns.lookup peer = none := horderly.resolve_left hclosed
  by_cases hfull : s.conns.lookup peer = none ∧ meshMaxConns ≤ s.conns.entries.length
  · rw [if_pos hfull]
    exact habort
  · rw [if_neg hfull]
    have hroom : s.conns.entries.length < meshMaxConns := Nat.lt_of_not_le fun hle => hfull ⟨hnone, hle⟩
    refine h.insert ht (by simpa using hclosed) hnone hroom ?_
    cases dial with
    | true => rfl
    | false => rfl

theorem Inv.stepRegister (h : s.Inv) {peer conn : ℕ} {go : Bool} (ht : s.tasks[i]? = some (.register peer conn))
    (horderly : go = true → s.Registrable peer conn) : (s.stepTask i go (.register peer conn)).Inv := by
  have hforget : (s.goTo i (.forget peer conn .closing)).Inv :=
    h.goTo ht (by simp [MeshTask.closes, MeshTask.holds]) rfl (fun _ => rfl)
  unfold Mesh.stepTask
  cases go with
  | false => exact hforget
  | true =>
    rcases horderly rfl with ⟨hcurrent, hnot⟩ | hfull
    · cases hreg : s.registerChannel peer conn with
      | none =>
        simp only [hreg, if_true]
        exact hforget
      | some s' =>
        simp only [hreg, if_true]
        refine (h.register hcurrent hnot hreg).goTo (registerChannel_tasks hreg ▸ ht) ?_ rfl (fun _ => rfl)
        simp [MeshTask.closes, MeshTask.holds]
    · simp only [registerChannel_full hfull, if_true]
      exact hforget

theorem Inv.stepForget (h : s.Inv) {peer conn : ℕ} {why : Removal} (ht : s.tasks[i]? = some (.forget peer conn why)) :
    (s.forgetConn i peer conn why).Inv := by
  unfold Mesh.forgetConn
  by_cases hcurrent : s.conns.lookup peer = some conn
  · rw [if_pos hcurrent]
    exact h.forgetConn ht hcurrent
  · rw [if_neg hcurrent]
    refine h.goTo ht ?_ ?_ (fun _ => rfl)
    · intro k hk
      simp only [MeshTask.closes, MeshTask.holds, Bool.and_eq_true, decide_eq_true_eq, Bool.false_eq_true,
        or_false] at hk
      rw [if_pos hk.2]
      simp [MeshTask.closes, hk.1]
    · split_ifs
      · rfl
      · rfl

theorem Inv.stepShutClose (h : s.Inv) {go : Bool} {conns : List ℕ} (ht : s.tasks[i]? = some (.shutClose conns)) :
    (s.stepTask i go (.shutClose conns)).Inv := by
  have hknows := h.knows _ (List.mem_of_getElem? ht)
  -- What the switch knows does not depend on the connections it has yet to close.
  have hlater : ∀ u : MeshTask, u = .shut ∨ (∃ ks, u = .shutClose ks) → s.Knows u := by
    rintro u (rfl | ⟨ks, rfl⟩)
    · exact ⟨by simp, by simp [MeshTask.removes], by simp [MeshTask.dropping], fun _ => hknows.flag rfl,
        fun _ => hknows.clear rfl, fun _ => hknows.silent rfl, by simp [MeshTask.buries]⟩
    · exact ⟨by simp, by simp [MeshTask.removes], by simp [MeshTask.dropping], fun _ => hknows.flag rfl,
        fun _ => hknows.clear rfl, fun _ => hknows.silent rfl, by simp [MeshTask.buries]⟩
  cases conns with
  | nil =>
    refine h.move ht rfl (Grown.refl _) (sameTracked_refl _ _ rfl) rfl rfl rfl rfl id ?_ ?_ ?_ ?_
    · intro k hk
      simp [MeshTask.closes, MeshTask.holds] at hk
    · intro k hk
      cases hk
    · obtain ⟨hfresh, hbare, hdropped, hflag, hclear, hsilent, hburied⟩ := hlater .shut (.inl rfl)
      exact ⟨hfresh, hbare, hdropped, hflag, hclear, hsilent, hburied⟩
    · intro p hp
      cases hp
  | cons conn rest =>
    refine h.close ht ?_ (fun _ => rfl) (hlater _ (.inr ⟨rest, rfl⟩)) (fun _ => rfl)
    intro k hk
    simpa [MeshTask.closes, MeshTask.holds] using hk

theorem Inv.stepTask (h : s.Inv) {go : Bool} (ht : s.tasks[i]? = some t)
    (hinsert : ∀ peer conn dial, t = .insert peer conn dial → s.closed = true ∨ s.conns.lookup peer = none)
    (hregister : ∀ peer conn, t = .register peer conn → go = true → s.Registrable peer conn) :
    (s.stepTask i go t).Inv := by
  have hplain : ∀ u : MeshTask, (∀ k, t.closes k = false ∧ t.holds k = false) → (∀ p, t.removes p = false) →
      u.plain = true → (s.goTo i u).Inv := by
    intro u hnone hremoves hu
    refine h.goTo ht ?_ hu hremoves
    intro k hk
    rw [(hnone k).1, (hnone k).2] at hk
    simp at hk
  cases t with
  | lookup peer dial =>
    refine hplain _ (fun _ => ⟨rfl, rfl⟩) (fun _ => rfl) ?_
    split_ifs
    · rfl
    · rfl
  | room peer dial =>
    refine hplain _ (fun _ => ⟨rfl, rfl⟩) (fun _ => rfl) ?_
    split_ifs
    · rfl
    · rfl
  | build peer dial =>
    cases go with
    | true => exact h.build ht
    | false => exact hplain .done (fun _ => ⟨rfl, rfl⟩) (fun _ => rfl) rfl
  | insert peer conn dial => exact h.insertConn ht (hinsert peer conn dial rfl)
  | abort conn =>
    refine h.close ht ?_ (fun _ => rfl) (knows_plain rfl) (fun _ => rfl)
    intro k hk
    simp only [MeshTask.closes, MeshTask.holds, decide_eq_true_eq, Bool.false_eq_true, or_false] at hk
    exact .inl hk.symm
  | register peer conn => exact h.stepRegister ht (hregister peer conn rfl)
  | settle peer conn =>
    refine hplain _ (fun _ => ⟨rfl, rfl⟩) (fun _ => rfl) ?_
    cases go with
    | true => rfl
    | false => rfl
  | forget peer conn why => exact h.stepForget ht
  | forgetChannel peer conn why => exact h.forgetChannel ht
  | forgetIngress peer conn why => exact h.forgetIngress ht
  | close conn =>
    refine h.close ht ?_ (fun _ => rfl) (knows_plain rfl) (fun _ => rfl)
    intro k hk
    simp only [MeshTask.closes, MeshTask.holds, decide_eq_true_eq, Bool.false_eq_true, or_false] at hk
    exact .inl hk.symm
  | shutFlag => exact h.shutFlag ht
  | shutConns => exact h.shutConns ht
  | shutChannels conns => exact h.shutChannels ht
  | shutIngress conns => exact h.shutIngress ht
  | shutClose conns => exact h.stepShutClose ht
  | shut => exact h
  | done => exact h

/-- A removal starts: of a closed connection, or of one that it will close. -/
theorem Inv.startForget (h : s.Inv) {conn : ℕ} {pc : PeerConn} {why : Removal} (hpc : s.pcs[conn]? = some pc)
    (hwhy : why = .closed → pc.closed = true) : (s.start (.forget pc.peer conn why)).Inv := by
  refine h.start ?_ (fun _ => rfl) (fun _ => rfl)
  refine ⟨by simp, by simp [MeshTask.removes], by simp [MeshTask.dropping], by simp [MeshTask.flagged],
    by simp [MeshTask.cleared], by simp [MeshTask.silenced], ?_⟩
  intro k hburies
  have hk : conn = k ∧ why = .closed := by simpa [MeshTask.buries] using hburies
  exact ⟨pc, hk.1 ▸ hpc, hwhy hk.2⟩

theorem step_inv (h : s.Inv) {a : MeshAction} (horderly : s.Orderly a) : (s.step a).Inv := by
  cases a with
  | dial peer =>
    simp only [step]
    split_ifs
    · exact h.start (knows_plain rfl) (fun _ => rfl) (fun _ => rfl)
    · exact h
  | offer peer =>
    simp only [step]
    split_ifs
    · exact h
    · exact h.start (knows_plain rfl) (fun _ => rfl) (fun _ => rfl)
  | step i go =>
    cases ht : s.tasks[i]? with
    | none =>
      simp only [step, ht]
      exact h
    | some t =>
      simp only [step, ht]
      obtain ⟨hinsert, hregister⟩ := horderly t ht
      exact h.stepTask ht hinsert hregister
  | dataChannel conn =>
    cases hpc : s.pcs[conn]? with
    | none =>
      simp only [step, hpc]
      exact h
    | some pc =>
      simp only [step, hpc]
      split_ifs with htracked
      · cases hreg : s.registerChannel pc.peer conn with
        | none => exact h
        | some s' =>
          rcases horderly pc hpc htracked with ⟨hcurrent, hnot⟩ | hfull
          · exact h.register hcurrent hnot hreg
          · rw [registerChannel_full hfull] at hreg
            cases hreg
      · exact h
  | opened d =>
    cases hc : s.chans[d]? with
    | none =>
      simp only [step, hc]
      exact h
    | some c =>
      simp only [step, hc]
      exact h.opened hc (horderly c hc)
  | closed d =>
    cases hc : s.chans[d]? with
    | none =>
      simp only [step, hc]
      exact h
    | some c =>
      simp only [step, hc]
      split_ifs with hclosed
      · exact h
      · have hopen : c.closed = false := by simpa using hclosed
        exact h.closed hc hopen (horderly c hc hopen)
  | terminal conn failed =>
    cases hpc : s.pcs[conn]? with
    | none =>
      simp only [step, hpc]
      exact h
    | some pc =>
      simp only [step, hpc]
      split_ifs with hfailed hclosed
      · exact h.startForget hpc (by simp)
      · exact h.startForget hpc fun _ => hclosed
      · exact h
  | reap conn =>
    cases hpc : s.pcs[conn]? with
    | none =>
      simp only [step, hpc]
      exact h
    | some pc =>
      simp only [step, hpc]
      split_ifs
      · exact h.startForget hpc (by simp)
      · exact h
  | shutdown => exact h.start (knows_plain rfl) (fun _ => rfl) (fun _ => rfl)

/-- **Main result.** In a run of orderly steps the books are right in every state reached. -/
theorem mesh_sound (localId : ℕ) (actions : List MeshAction)
    (horderly : ∀ p ∈ Trace.visited step (new localId) actions, p.1.Orderly p.2) :
    (actions.foldl step (new localId)).Sound := by
  have hrun := Trace.run_visited step actions (new localId)
  have hstep : ∀ (s : Mesh) (a : MeshAction) (s' : Mesh), s.Inv → s.Orderly a → s.step a = s' → s'.Inv := by
    rintro s a _ h ha rfl
    exact step_inv h ha
  exact (hrun.invariant hstep (inv_new localId) horderly).sound

theorem orderly_step {go : Bool} (ht : s.tasks[i]? = some t)
    (hinsert : ∀ peer conn dial, t = .insert peer conn dial → s.closed = true ∨ s.conns.lookup peer = none)
    (hregister : ∀ peer conn, t = .register peer conn → go = true → s.Registrable peer conn) :
    s.Orderly (.step i go) := by
  intro u hu
  rw [ht] at hu
  cases hu
  exact ⟨hinsert, hregister⟩

/-- A dial whose channel opens. -/
def quietRun : List MeshAction :=
  [.dial 5, .step 0 true, .step 0 true, .step 0 true, .step 0 true, .step 0 true, .opened 0]

theorem quiet_run_sound : (quietRun.foldl step (new 1)).Sound := by
  refine mesh_sound 1 quietRun ?_
  simp only [quietRun, Trace.visited, List.forall_mem_cons]
  refine ⟨trivial, orderly_step (t := .lookup 5 true) (by decide +kernel) (by simp) (by simp),
    orderly_step (t := .room 5 true) (by decide +kernel) (by simp) (by simp),
    orderly_step (t := .build 5 true) (by decide +kernel) (by simp) (by simp),
    orderly_step (t := .insert 5 0 true) (by decide +kernel) ?_ (by simp),
    orderly_step (t := .register 5 0) (by decide +kernel) (by simp) ?_, ?_, by simp⟩
  · intro peer conn dial heq
    cases heq
    exact .inr (by decide +kernel)
  · intro peer conn heq _
    cases heq
    refine .inl ⟨by decide +kernel, ?_⟩
    unfold Removing
    decide +kernel
  · intro c hc
    have hone : some (⟨5, 0, 0, false⟩ : MeshChannel) = some c := hc
    cases hone
    decide +kernel

/-! ### Two generations of one peer -/

/-- The steps of a dial that goes through, the task being in place `i`. -/
def dialSteps (i : ℕ) : List MeshAction := List.replicate 6 (.step i true)

/-- Two dials of one peer that both find it missing; then both insert. -/
def twoDials : Mesh :=
  List.foldl step (new 1) (([.dial 5, .dial 5, .step 0 true, .step 0 true, .step 0 true] : List MeshAction) ++
    dialSteps 1 ++ ([.step 0 true, .step 0 true, .step 0 true] : List MeshAction))

/-- A dial, its connection reaped and closed, and a second dial. -/
def redialled : Mesh :=
  List.foldl step (new 1) ([MeshAction.dial 5] ++ dialSteps 0 ++
    ([.reap 0, .step 1 true, .step 1 true, .step 1 true, .step 1 true] : List MeshAction) ++
    [MeshAction.dial 5] ++ dialSteps 2)

/-- The remote opens four channels on the second connection after the close callback of the first one's. -/
def fiveChannels : Mesh :=
  List.foldl step redialled [.closed 0, .dataChannel 1, .dataChannel 1, .dataChannel 1, .dataChannel 1]

/-- A connection put over another loses it; a late open callback brings an old channel back; a late close callback
lets a fifth channel in. No task has anything left to do. -/
theorem two_generations_mixed :
    (twoDials.conns.lookup 5 = some 0 ∧ twoDials.pcs[1]? = some ⟨5, true, false⟩ ∧
      (∀ t ∈ twoDials.tasks, t = .done) ∧ ¬ twoDials.Sound) ∧
    ((redialled.step (.opened 0)).channels.lookup 5 = some 0 ∧
      (redialled.step (.opened 0)).chans[0]? = some ⟨5, 0, 0, false⟩ ∧
      (redialled.step (.opened 0)).conns.lookup 5 = some 1 ∧
      (∀ t ∈ (redialled.step (.opened 0)).tasks, t = .done) ∧ ¬ (redialled.step (.opened 0)).Sound) ∧
    fiveChannels.conns.lookup 5 = some 1 ∧ fiveChannels.liveChannels 5 = 4 ∧ (fiveChannels.onCurrent 5).length = 5 ∧
      (∀ t ∈ fiveChannels.tasks, t = .done) ∧ ¬ fiveChannels.Sound := by
  refine ⟨⟨by decide +kernel, by decide +kernel, by decide +kernel, ?_⟩,
    ⟨by decide +kernel, by decide +kernel, by decide +kernel, by decide +kernel, ?_⟩,
    by decide +kernel, by decide +kernel, by decide +kernel, by decide +kernel, ?_⟩
  · intro h
    have hlost : twoDials.pcs[1]? = some ⟨5, true, false⟩ := by decide +kernel
    rcases h.accounted 1 _ hlost with hcurrent | hclosed | hby
    · revert hcurrent
      decide +kernel
    · cases hclosed
    · revert hby
      decide +kernel
  · intro h
    have hidle : ¬ (redialled.step (.opened 0)).Removing 5 := by
      unfold Removing
      decide +kernel
    obtain ⟨c, hc, -, hcurrent⟩ := (h.settled 5 hidle).channel 0 (by decide +kernel)
    have hold : (redialled.step (.opened 0)).chans[0]? = some ⟨5, 0, 0, false⟩ := by decide +kernel
    rw [hold] at hc
    cases hc
    revert hcurrent
    decide +kernel
  · intro h
    have hfew := h.fewChannels 5
    revert hfew
    decide +kernel

end Mesh

end Alphanumeric
