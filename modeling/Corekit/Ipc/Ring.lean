import Corekit.Foundation.CyclicMemory
import Corekit.Ipc.Sizing

/-! The ring as a tape of frames. `Frames` is the parse of the bytes between
two indices; publishing a frame or a wrap marker extends it on the right,
receiving one shortens it on the left. -/
namespace Corekit.Ipc
open Corekit.Api Corekit.Foundation

structure Geometry (layout : HeaderLayout) (size : Nat) : Prop where
  ringBytes : layout.ringBytes.toNat = size
  ringMask : layout.ringMask.toNat = size - 1
  pow : ∃ k, 4 ≤ k ∧ k ≤ 31 ∧ size = 2 ^ k
  fits : frameBytes layout.messageMaxBytes.toNat ≤ size

namespace Geometry

variable {layout : HeaderLayout} {size : Nat}

theorem low (g : Geometry layout size) : 16 ≤ size := by
  obtain ⟨k, hk, -, rfl⟩ := g.pow
  exact Nat.pow_le_pow_right (show 0 < 2 by decide) hk

theorem high (g : Geometry layout size) : size ≤ 2 ^ 31 := by
  obtain ⟨k, -, hk, rfl⟩ := g.pow
  exact Nat.pow_le_pow_right (by decide) hk

theorem eight_dvd (g : Geometry layout size) : 8 ∣ size := by
  obtain ⟨k, hk, -, rfl⟩ := g.pow
  exact pow_dvd_pow 2 (show 3 ≤ k by omega)

/-- The 64-bit index space is a whole number of laps. -/
theorem dvd_two_pow_64 (g : Geometry layout size) : size ∣ 2 ^ 64 := by
  obtain ⟨k, -, hk, rfl⟩ := g.pow
  exact pow_dvd_pow 2 (show k ≤ 64 by omega)

theorem and_mask (g : Geometry layout size) (index : Nat) :
    index &&& layout.ringMask.toNat = index % size := by
  obtain ⟨k, -, -, hsize⟩ := g.pow
  rw [g.ringMask, hsize, Nat.and_two_pow_sub_one_eq_mod]

theorem contiguousFrom_eq (g : Geometry layout size) (index : Nat) :
    contiguousFrom layout index = size - index % size := by
  unfold contiguousFrom
  rw [g.and_mask, g.ringBytes]

theorem header_fits (g : Geometry layout size) {index : Nat} (h : 8 ∣ index) :
    index % size + 8 ≤ size := by
  have hlt := Nat.mod_lt index (show 0 < size by have := g.low; omega)
  have hmod : 8 ∣ index % size := (Nat.dvd_mod_iff g.eight_dvd).mpr h
  have hsize := g.eight_dvd
  omega

theorem frame_fits (g : Geometry layout size) {message : Message}
    (h : message.length ≤ layout.messageMaxBytes.toNat) :
    frameBytes message.length ≤ size :=
  (frameBytes_mono h).trans g.fits

end Geometry

theorem skipShortTail_aligned {layout : HeaderLayout} {size : Nat} {ep : Endpoint}
    {st : RecvLoop} (geo : Geometry layout size)
    (halign : 8 ∣ st.read) (hcontiguous : st.contiguous = size - st.read % size) :
    skipShortTail layout ep st = .ret (.inl st, ep) := by
  have hfit := geo.header_fits halign
  unfold skipShortTail frameHeaderBytes
  rw [if_neg (by omega)]
  rfl

theorem eight_dvd_frameBytes (length : Nat) : 8 ∣ frameBytes length := by
  rw [frameBytes_eq]
  omega

theorem header_le_frameBytes (length : Nat) : 8 + length ≤ frameBytes length := by
  rw [frameBytes_eq]
  omega

/-- Options that pass the checks of `OpenServer` and whose frames fit `2 ^ 31`
bytes give a ring with room for a frame of the largest size. -/
theorem serverLayout_ring {options : ChannelOptions}
    (hvalid : (validateOptions options).ok = true) (htotal : totalBytes options ≠ 0)
    (hdemand : ringDemand options ≤ 2 ^ 31) :
    Geometry (serverLayout options) (serverLayout options).ringBytes.toNat := by
  obtain ⟨⟨k, hk, hpow⟩, hroom, -⟩ := serverLayout_geometry hvalid htotal hdemand
  obtain ⟨-, hcap, hmax⟩ := validateOptions_ok hvalid
  have hone : frameBytes options.messageMaxBytes.toNat ≤ ringDemand options :=
    Nat.le_mul_of_pos_left _ hcap
  have hlow : 16 ≤ frameBytes options.messageMaxBytes.toNat := by
    rw [frameBytes_eq]
    omega
  refine ⟨rfl, serverLayout_mask options (by omega), ⟨k, ?_, hk, hpow⟩, hone.trans hroom⟩
  by_contra hsmall
  have : 2 ^ k ≤ 2 ^ 3 := Nat.pow_le_pow_right (by decide) (by omega)
  omega

/-- An endpoint as a successful open leaves it. -/
structure Opened (layout : HeaderLayout) (ep : Endpoint) : Prop where
  outbox : ep.localOutbox = []
  capacity : ep.options.capacity = layout.capacity
  maxBytes : ep.options.messageMaxBytes = layout.messageMaxBytes
  opened : ep.opened = true
  headerMapped : ep.headerMapped = true

theorem openServer_opened {ep ep' : Endpoint} {options : ChannelOptions}
    {create status : Status} {region : Region}
    (h : openServer ep options create = (status, ep', some region)) :
    Opened region.layout ep' := by
  unfold openServer mapAsServer at h
  dsimp only at h
  split_ifs at h <;>
    simp only [Prod.mk.injEq, reduceCtorEq, and_false, Option.some.injEq] at h
  obtain ⟨-, rfl, rfl⟩ := h
  exact ⟨rfl, rfl, rfl, rfl, rfl⟩

theorem openClient_opened {ep ep' : Endpoint} {options : ChannelOptions} {region : Region}
    {probe remap status : Status} (h : openClient ep options region probe remap = (status, ep'))
    (hok : status.ok = true) :
    Opened region.layout ep' ∧ region.layout.ringBytes ≠ 0 := by
  unfold openClient mapAsClient at h
  split_ifs at h with _ _ hprobe _ hring hremap <;> cases h
  · simp [Status.ok] at hok
  · simp [Status.ok] at hok
  · simp [hok] at hprobe
  · simp [Status.ok] at hok
  · simp [Status.ok] at hok
  · simp [hok] at hremap
  · exact ⟨⟨rfl, rfl, rfl, rfl, rfl⟩, fun hzero => hring (.inl hzero)⟩

/-- A region that a server created and a client of the same name then opened,
both with kOk, and the two endpoints they did it with. -/
structure BothOpen (options : ChannelOptions) (region : Region) (server client : Endpoint) :
    Prop where
  serverOpens : ∃ ep create, openServer ep options create = (.okStatus, server, some region)
  clientOpens : ∃ ep clientOptions probe remap, clientOptions.name = options.name ∧
    openClient ep clientOptions region probe remap = (.okStatus, client)

namespace BothOpen

variable {options : ChannelOptions} {region : Region} {server client : Endpoint}

theorem shm_eq (h : BothOpen options region server client) : region.shm = clearedShm := by
  obtain ⟨_, _, hserver⟩ := h.serverOpens
  obtain ⟨-, -, rfl⟩ := openServer_some hserver
  rfl

theorem server_opened (h : BothOpen options region server client) :
    Opened region.layout server := by
  obtain ⟨_, _, hserver⟩ := h.serverOpens
  exact openServer_opened hserver

theorem client_opened (h : BothOpen options region server client) :
    Opened region.layout client := by
  obtain ⟨_, _, _, _, -, hclient⟩ := h.clientOpens
  exact (openClient_opened hclient rfl).1

theorem demand_le (h : BothOpen options region server client) :
    ringDemand options ≤ 2 ^ 31 := by
  obtain ⟨_, _, hserver⟩ := h.serverOpens
  obtain ⟨_, _, _, _, -, hclient⟩ := h.clientOpens
  obtain ⟨-, hne⟩ := openClient_opened hclient rfl
  obtain ⟨-, htotal, rfl⟩ := openServer_some hserver
  by_contra hlarge
  obtain ⟨target, hring, -, hcase⟩ := server_target htotal
  apply hne
  apply UInt32.toNat_inj.mp
  rw [hring]
  exact nextPow2_of_gt (by omega)

theorem geometry (h : BothOpen options region server client) :
    Geometry region.layout region.layout.ringBytes.toNat := by
  have hdemand := h.demand_le
  obtain ⟨_, _, hserver⟩ := h.serverOpens
  obtain ⟨hvalid, htotal, rfl⟩ := openServer_some hserver
  exact serverLayout_ring hvalid htotal hdemand

theorem room (h : BothOpen options region server client) :
    options.capacity.toNat * frameBytes region.layout.messageMaxBytes.toNat ≤
      region.layout.ringBytes.toNat := by
  have hdemand := h.demand_le
  obtain ⟨_, _, hserver⟩ := h.serverOpens
  obtain ⟨hvalid, htotal, rfl⟩ := openServer_some hserver
  exact (serverLayout_geometry hvalid htotal hdemand).2.1

end BothOpen

/-- A complete data frame at index `i`. It does not cross the ring end. -/
structure FrameAt (size maxBytes : Nat) (ring : Mem) (i : Nat) (message : Message) :
    Prop where
  length_le : message.length ≤ maxBytes
  sizeWord : ring.loadLE 4 (i % size) = message.length
  marker : ring.loadLE 4 (i % size + 4) = kFrameData
  bytes : ring.read (i % size + 8) message.length = message
  fit : i % size + frameBytes message.length ≤ size

def WrapAt (size : Nat) (ring : Mem) (i : Nat) : Prop :=
  ring.loadLE 4 (i % size + 4) = kFrameWrap

/-- The bytes from index `i` to index `j` are complete frames and wrap markers,
carrying these messages. A wrap marker is followed by the ring start. -/
inductive Frames (size maxBytes : Nat) (ring : Mem) : Nat → Nat → List Message → Prop
  | nil (i : Nat) : Frames size maxBytes ring i i []
  | data {i j : Nat} {message : Message} {rest : List Message}
      (hhead : FrameAt size maxBytes ring i message)
      (hrest : Frames size maxBytes ring (i + frameBytes message.length) j rest) :
      Frames size maxBytes ring i j (message :: rest)
  | wrap {i j : Nat} {rest : List Message} (hhead : WrapAt size ring i)
      (hrest : Frames size maxBytes ring (i + (size - i % size)) j rest) :
      Frames size maxBytes ring i j rest

section Heads

variable {layout : HeaderLayout} {size maxBytes : Nat} {ring ring' : Mem} {i j : Nat}
  {message message' : Message}

/-- A stretch that stays inside one lap is unchanged in memory when it is
unchanged on the tape. -/
theorem same_stretch {d len : Nat}
    (hsame : ∀ x, i ≤ x → x < j → ring' (x % size) = ring (x % size))
    (hfit : i % size + d + len ≤ size) (hle : i + d + len ≤ j) :
    ∀ x, i % size + d ≤ x → x < i % size + d + len → ring' x = ring x := by
  intro x hlow hhigh
  have hx : (i + (x - i % size)) % size = x := by
    rw [mod_add_of_fit (by omega)]
    omega
  rw [← hx]
  exact hsame _ (by omega) (by omega)

theorem FrameAt.congr (h : FrameAt size maxBytes ring i message)
    (hsame : ∀ x, i ≤ x → x < j → ring' (x % size) = ring (x % size))
    (hle : i + frameBytes message.length ≤ j) : FrameAt size maxBytes ring' i message := by
  have hhead := header_le_frameBytes message.length
  have hfit := h.fit
  refine ⟨h.length_le, ?_, ?_, ?_, hfit⟩
  · rw [← h.sizeWord]
    exact Mem.loadLE_congr (same_stretch (d := 0) hsame (by omega) (by omega))
  · rw [← h.marker]
    exact Mem.loadLE_congr (same_stretch hsame (by omega) (by omega))
  · conv_rhs => rw [← h.bytes]
    exact Mem.read_congr (same_stretch hsame (by omega) (by omega))

theorem WrapAt.congr (h : WrapAt size ring i)
    (hsame : ∀ x, i ≤ x → x < j → ring' (x % size) = ring (x % size))
    (hfit : i % size + 8 ≤ size) (hle : i + 8 ≤ j) : WrapAt size ring' i := by
  unfold WrapAt at h ⊢
  rw [← h]
  exact Mem.loadLE_congr (same_stretch hsame (by omega) (by omega))

theorem FrameAt.unique (h : FrameAt size maxBytes ring i message)
    (h' : FrameAt size maxBytes ring i message') : message = message' := by
  have hlen : message.length = message'.length := h.sizeWord.symm.trans h'.sizeWord
  rw [← h.bytes, ← h'.bytes, hlen]

theorem FrameAt.not_wrap (h : FrameAt size maxBytes ring i message) :
    ¬ WrapAt size ring i := by
  intro hwrap
  have := h.marker.symm.trans hwrap
  exact absurd this (by decide)

end Heads

namespace Frames

variable {layout : HeaderLayout} {size maxBytes : Nat} {ring : Mem} {i j k : Nat}
  {messages rest : List Message} {message : Message}

theorem le (h : Frames size maxBytes ring i j messages) : i ≤ j := by
  induction h with
  | nil i => exact le_refl i
  | data _ _ ih => omega
  | wrap _ _ ih => omega

theorem trans (h : Frames size maxBytes ring i j messages)
    (h' : Frames size maxBytes ring j k rest) :
    Frames size maxBytes ring i k (messages ++ rest) := by
  induction h with
  | nil i => exact h'
  | data hhead _ ih => exact .data hhead (ih h')
  | wrap hhead _ ih => exact .wrap hhead (ih h')

theorem congr (g : Geometry layout size) {ring' : Mem}
    (h : Frames size maxBytes ring i j messages) (halign : 8 ∣ i)
    (hsame : ∀ x, i ≤ x → x < j → ring' (x % size) = ring (x % size)) :
    Frames size maxBytes ring' i j messages := by
  induction h with
  | nil i => exact .nil i
  | @data i j message rest hhead hrest ih =>
    have hj := hrest.le
    refine .data (hhead.congr hsame hj) (ih ?_ ?_)
    · exact Nat.dvd_add halign (eight_dvd_frameBytes _)
    · exact fun x hlow hhigh => hsame x (by omega) hhigh
  | @wrap i j rest hhead hrest ih =>
    have hj := hrest.le
    have hfit := g.header_fits halign
    refine .wrap (hhead.congr hsame hfit (by omega)) (ih ?_ ?_)
    · rw [lap_end_eq i (by omega)]
      exact g.eight_dvd.mul_right _
    · exact fun x hlow hhigh => hsame x (by omega) hhigh

theorem keep (g : Geometry layout size) {ring' : Mem} {len : Nat}
    (h : Frames size maxBytes ring i j messages) (halign : 8 ∣ i)
    (hout : Mem.SameOutside (j % size) len ring ring') (hfit : j % size + len ≤ size)
    (hwin : j + len ≤ i + size) : Frames size maxBytes ring' i j messages := by
  apply h.congr g halign
  intro x hlow hhigh
  exact hout _ (outside_block hfit hhigh (by omega))

theorem eq_nil (h : Frames size maxBytes ring i j messages) (hge : j ≤ i)
    (hsize : 0 < size) : messages = [] := by
  induction h with
  | nil i => rfl
  | @data i j message rest _ hrest _ =>
    have := hrest.le
    have := header_le_frameBytes message.length
    omega
  | @wrap i j rest _ hrest _ =>
    have := hrest.le
    have := Nat.mod_lt i hsize
    omega

theorem add_frame_le (h : Frames size maxBytes ring i j (message :: rest)) :
    i + frameBytes message.length ≤ j := by
  generalize hlist : message :: rest = list at h
  induction h with
  | nil i => cases hlist
  | data _ hrest _ =>
    cases hlist
    exact hrest.le
  | wrap _ _ ih =>
    have := ih hlist
    omega

theorem unique (h : Frames size maxBytes ring i j messages)
    (h' : Frames size maxBytes ring i j rest) (hsize : 0 < size) : messages = rest := by
  induction h generalizing rest with
  | nil i => exact (h'.eq_nil (le_refl i) hsize).symm
  | @data i j message tail hhead hrest ih =>
    have hle := hrest.le
    have hframe := header_le_frameBytes message.length
    cases h' with
    | nil => omega
    | data hhead' hrest' =>
      cases hhead.unique hhead'
      rw [ih hrest']
    | wrap hwrap _ => exact absurd hwrap hhead.not_wrap
  | @wrap i j tail hwrap hrest ih =>
    have hle := hrest.le
    have hmod := Nat.mod_lt i hsize
    cases h' with
    | nil => omega
    | data hhead' _ => exact absurd hwrap hhead'.not_wrap
    | wrap _ hrest' => exact ih hrest'

theorem head_cases (h : Frames size maxBytes ring i j messages) (hlt : i < j) :
    (∃ message rest, messages = message :: rest ∧ FrameAt size maxBytes ring i message ∧
      Frames size maxBytes ring (i + frameBytes message.length) j rest) ∨
    (WrapAt size ring i ∧ Frames size maxBytes ring (i + (size - i % size)) j messages) := by
  cases h with
  | nil => omega
  | data hhead hrest => exact .inl ⟨_, _, rfl, hhead, hrest⟩
  | wrap hhead hrest => exact .inr ⟨hhead, hrest⟩

end Frames

theorem putWrap_outside (ring : Mem) (off len : Nat) (hlen : 8 ≤ len) :
    Mem.SameOutside off len ring (putWrap ring off) :=
  (Mem.SameOutside.write (by omega) (by simp; omega) ring).trans
    (.write (by omega) (by simp; omega) _)

theorem putWrap_mark (ring : Mem) (off : Nat) :
    (putWrap ring off).loadLE 4 (off + 4) = kFrameWrap :=
  Mem.loadLE_storeLE _ _ (by decide)

theorem putFrame_outside (ring : Mem) (off : Nat) (message : Message) :
    Mem.SameOutside off (frameBytes message.length) ring (putFrame ring off message) := by
  have hhead := header_le_frameBytes message.length
  unfold putFrame frameHeaderBytes
  refine .trans (.trans (.trans (.write ?_ ?_ ring) (.write ?_ ?_ _)) (.write ?_ ?_ _))
    (.write ?_ ?_ _)
  all_goals
    try rw [leBytes_length]
    try rw [List.length_replicate]
    omega

theorem frameAt_putFrame {size maxBytes i : Nat} {message : Message} (ring : Mem)
    (hlen : message.length ≤ maxBytes) (hmax : maxBytes < 2 ^ 32)
    (hfit : i % size + frameBytes message.length ≤ size) :
    FrameAt size maxBytes (putFrame ring (i % size) message) i message := by
  -- each of the three is the last write to its bytes
  have hpad : ∀ (ring : Mem) (bytes : List UInt8),
      Mem.SameOutside (i % size + 8 + message.length) bytes.length ring
        (ring.write (i % size + 8 + message.length) bytes) :=
    fun ring bytes => .write (le_refl _) (le_refl _) ring
  have hbody : ∀ ring : Mem, Mem.SameOutside (i % size + 8) message.length ring
      (ring.write (i % size + 8) message) :=
    fun ring => .write (le_refl _) (le_refl _) ring
  have hmark : ∀ ring : Mem, Mem.SameOutside (i % size + 4) 4 ring
      (ring.storeLE 4 (i % size + 4) kFrameData) :=
    fun ring => .write (le_refl _) (by simp) ring
  unfold putFrame frameHeaderBytes
  refine ⟨hlen, ?_, ?_, ?_, hfit⟩
  · rw [(hpad _ _).loadLE_eq (by omega), (hbody _).loadLE_eq (by omega),
      (hmark _).loadLE_eq (by omega)]
    exact Mem.loadLE_storeLE _ _ (by omega)
  · rw [(hpad _ _).loadLE_eq (by omega), (hbody _).loadLE_eq (by omega)]
    exact Mem.loadLE_storeLE _ _ (by decide)
  · rw [(hpad _ _).read_eq (by omega)]
    exact Mem.read_write_same _ _ _

namespace Frames

variable {layout : HeaderLayout} {size maxBytes : Nat} {ring : Mem} {i j : Nat}
  {messages : List Message} {message : Message}

theorem publish (g : Geometry layout size)
    (h : Frames size maxBytes ring i j messages) (halign : 8 ∣ i)
    (hlen : message.length ≤ maxBytes) (hmax : maxBytes < 2 ^ 32)
    (hfit : j % size + frameBytes message.length ≤ size)
    (hwin : j + frameBytes message.length ≤ i + size) :
    Frames size maxBytes (putFrame ring (j % size) message) i
      (j + frameBytes message.length) (messages ++ [message]) := by
  exact (h.keep g halign (putFrame_outside ring _ message) hfit hwin).trans
    (.data (frameAt_putFrame ring hlen hmax hfit) (.nil _))

theorem publishWrap (g : Geometry layout size)
    (h : Frames size maxBytes ring i j messages) (hi : 8 ∣ i) (hj : 8 ∣ j)
    (hwin : j + (size - j % size) ≤ i + size) :
    Frames size maxBytes (putWrap ring (j % size)) i (j + (size - j % size))
      messages := by
  have hhead := g.header_fits hj
  have hmark := putWrap_mark ring (j % size)
  have hkeep := h.keep g hi (putWrap_outside ring (j % size) 8 (le_refl 8)) hhead (by omega)
  simpa using hkeep.trans (.wrap hmark (.nil _))

end Frames

/-- The two indices. `written` is the write index as a natural number; the
shared one is its 64-bit remainder, and no byte is written past `2 ^ 64`. -/
structure RingIndices (size : Nat) (shm : Shm) (written : Nat) : Prop where
  write_eq : shm.writeIndex = written % 2 ^ 64
  read_le : shm.readIndex ≤ written
  window : written ≤ shm.readIndex + size
  read_lt : shm.readIndex < 2 ^ 64
  written_le : written ≤ 2 ^ 64
  read_align : 8 ∣ shm.readIndex
  written_align : 8 ∣ written

theorem RingIndices.cleared (size : Nat) : RingIndices size clearedShm 0 where
  write_eq := rfl
  read_le := le_refl _
  window := Nat.zero_le _
  read_lt := show 0 < 2 ^ 64 by decide
  written_le := Nat.zero_le _
  read_align := Nat.dvd_zero 8
  written_align := Nat.dvd_zero 8

theorem RingIndices.unique {layout : HeaderLayout} {size : Nat} {shm : Shm}
    {written written' : Nat} (geo : Geometry layout size) (h : RingIndices size shm written)
    (h' : RingIndices size shm written') : written = written' := by
  have hhigh := geo.high
  have hwrite := h.write_eq.symm.trans h'.write_eq
  have := h.read_le
  have := h.window
  have := h'.read_le
  have := h'.window
  omega

/-- The free space the producer computes: none once the index has wrapped. -/
theorem RingIndices.freeBytes_eq {layout : HeaderLayout} {size : Nat} {shm : Shm}
    {written : Nat} (geo : Geometry layout size) (h : RingIndices size shm written) :
    layout.ringBytes.toNat - usedBytes layout shm.writeIndex shm.readIndex =
      if written < 2 ^ 64 then shm.readIndex + size - written else 0 := by
  have hread := h.read_le
  have hwin := h.window
  have hlow := geo.low
  have hhigh := geo.high
  have hle := h.written_le
  unfold usedBytes
  rw [geo.ringBytes, h.write_eq]
  by_cases hlt : written < 2 ^ 64
  · rw [Nat.mod_eq_of_lt hlt, if_neg (by omega), if_neg (by omega), if_pos hlt]
    omega
  · have hwrapped : written % 2 ^ 64 = 0 := by omega
    rw [hwrapped, if_pos (by omega), if_neg hlt]
    omega

end Corekit.Ipc
