import Corekit.Foundation.BitSpread
import Corekit.Ipc.Calls

/-! Ring sizing. The byte count is computed twice, in 64 bits by `TotalBytes`
and in 32 bits by `MapAsServer`, and both go through the 32-bit `NextPow2`.
The two agree, and give a usable ring, exactly up to a product of `2 ^ 31`. -/
namespace Corekit.Ipc
open Corekit.Api Corekit.Foundation

theorem nextPow2_toNat (v : UInt32) (hpos : 1 ≤ v.toNat) :
    (nextPow2 v).toNat = 2 ^ (v.toNat - 1).size % 2 ^ 32 := by
  unfold nextPow2
  split
  · rename_i hle
    have hone : v.toNat = 1 := by
      have := UInt32.le_iff_toNat_le.mp hle
      simp at this
      omega
    simp [hone]
  · rename_i hgt
    have hle : (1 : UInt32) ≤ v := UInt32.le_iff_toNat_le.mpr hpos
    have hsub : (v - 1).toNat = v.toNat - 1 := by
      rw [UInt32.toNat_sub_of_le _ _ hle]
      rfl
    have hspread := ((((Spread.one (v.toNat - 1)).double).double).double).double.double
    have hsize := hspread.eq_size
      (Nat.lt_of_le_of_lt (Nat.sub_le _ _) v.toNat_lt)
    simp only [UInt32.toNat_add, UInt32.toNat_or, UInt32.toNat_shiftRight, hsub]
    change (_ + 1) % 2 ^ 32 = _
    rw [← Nat.sub_add_cancel (Nat.one_le_two_pow (n := (v.toNat - 1).size)), ← hsize]
    rfl

theorem nextPow2_of_le {v : UInt32} (hpos : 1 ≤ v.toNat) (hle : v.toNat ≤ 2 ^ 31) :
    ∃ k, k ≤ 31 ∧ (nextPow2 v).toNat = 2 ^ k ∧ v.toNat ≤ 2 ^ k := by
  have hsize : (v.toNat - 1).size ≤ 31 := Nat.size_le.mpr (by omega)
  refine ⟨(v.toNat - 1).size, hsize, ?_, ?_⟩
  · rw [nextPow2_toNat v hpos]
    exact Nat.mod_eq_of_lt (Nat.pow_lt_pow_right (by decide) (by omega))
  · have := Nat.lt_size_self (v.toNat - 1)
    omega

/-- Beyond `2 ^ 31` the addition wraps and nothing is left. -/
theorem nextPow2_of_gt {v : UInt32} (hgt : 2 ^ 31 < v.toNat) :
    (nextPow2 v).toNat = 0 := by
  have hlow : 31 < (v.toNat - 1).size := Nat.lt_size.mpr (by omega)
  have hhigh : (v.toNat - 1).size ≤ 32 := Nat.size_le.mpr (by
    have := v.toNat_lt
    omega)
  rw [nextPow2_toNat v (by omega), show (v.toNat - 1).size = 32 by omega, Nat.mod_self]

theorem frameBytes_eq (size : Nat) : frameBytes size = (size + 15) / 8 * 8 := by
  unfold frameBytes alignUp frameHeaderBytes
  omega

theorem frameBytes_mono {small large : Nat} (h : small ≤ large) :
    frameBytes small ≤ frameBytes large := by
  rw [frameBytes_eq, frameBytes_eq]
  omega

def ringDemand (options : ChannelOptions) : Nat :=
  options.capacity.toNat * frameBytes options.messageMaxBytes.toNat

/-- The 32-bit product of `MapAsServer` and the checked 64-bit product of
`TotalBytes` are the same number. Only the strides above `2 ^ 32` need care:
there the stride is `2 ^ 32 + 8`. -/
theorem target_eq {c s : Nat} (hc : c < 2 ^ 32) (hs : s ≤ 2 ^ 32 + 8)
    (hdvd : 8 ∣ s) (hfit : s * c % 2 ^ 64 ≤ 2 ^ 32 - 1) :
    s * c % 2 ^ 32 = s * c % 2 ^ 64 ∧
      (s * c ≤ 2 ^ 31 ∨ 2 ^ 31 < s * c % 2 ^ 64) := by
  obtain ⟨q, rfl⟩ := hdvd
  by_cases hbig : 8 * q = 2 ^ 32 + 8
  · rw [hbig] at hfit ⊢
    rcases Nat.lt_or_ge ((2 ^ 32 + 8) * c) (2 ^ 64) with hsmall | hwrap
    · rw [Nat.mod_eq_of_lt hsmall] at hfit ⊢
      omega
    · have hmod : (2 ^ 32 + 8) * c % 2 ^ 64 = (2 ^ 32 + 8) * c - 2 ^ 64 := by
        rw [Nat.mod_eq_sub_mod hwrap, Nat.mod_eq_of_lt (by omega)]
      rw [hmod] at hfit ⊢
      omega
  · have hprod : 8 * q * c < 2 ^ 64 := by
      calc 8 * q * c ≤ 2 ^ 32 * c := Nat.mul_le_mul_right c (by omega)
        _ < 2 ^ 64 := by omega
    rw [Nat.mod_eq_of_lt hprod] at hfit ⊢
    omega

theorem frameBytes_max_le (m : UInt32) : frameBytes m.toNat ≤ 2 ^ 32 + 8 := by
  have := m.toNat_lt
  rw [frameBytes_eq]
  omega

/-- What a caller of `OpenServer` may rely on about the region it published. -/
structure SizingSound (options : ChannelOptions) (region : Region) : Prop where
  pow : ∃ k, region.layout.ringBytes.toNat = 2 ^ k
  mask : region.layout.ringMask.toNat = region.layout.ringBytes.toNat - 1
  mapped : sharedHeaderBytes + region.layout.ringBytes.toNat = region.mappedBytes
  room : ringDemand options ≤ region.layout.ringBytes.toNat
  /-- A client of the same name passes the header checks. -/
  clientOpens : ∀ ep clientOptions probe remap, ep.opened = false →
    clientOptions.name = options.name → probe.ok → remap.ok →
    (openClient ep clientOptions region probe remap).1.ok
  /-- No size that `TrySend` lets through is refused as too large. -/
  frameFits : ∀ ep (message : Message) (w : World),
    message.length ≤ options.messageMaxBytes.toNat →
    ((tryWriteOneToShared region.layout ep message).run exec w).1.1.code ≠
      .kInvalidArgument
  /-- Every message that leaves the outbox has been written to the ring. -/
  noSilentPop : ∀ ep budget (w : World),
    (∀ message ∈ ep.localOutbox,
      message.length ≤ options.messageMaxBytes.toNat) →
    ∃ written,
      ep.localOutbox =
        written ++ ((processIoOnce region.layout ep budget).run exec w).1.localOutbox ∧
      ((processIoOnce region.layout ep budget).run exec w).2.shm.sendOk % 2 ^ 64 =
        (w.shm.sendOk + written.length) % 2 ^ 64

theorem openServer_some {ep ep' : Endpoint} {options : ChannelOptions}
    {create status : Status} {region : Region}
    (h : openServer ep options create = (status, ep', some region)) :
    (validateOptions options).ok = true ∧ totalBytes options ≠ 0 ∧
      region = ⟨serverLayout options, clearedShm, totalBytes options⟩ := by
  unfold openServer at h
  split at h
  · simp at h
  · split at h
    · rename_i hvalid
      unfold mapAsServer at h
      dsimp only at h
      split at h
      · simp at h
      · rename_i htotal
        split at h
        · simp only [Prod.mk.injEq, Option.some.injEq] at h
          exact ⟨hvalid, htotal, h.2.2.symm⟩
        · simp at h
    · simp at h

theorem validateOptions_ok {options : ChannelOptions}
    (h : (validateOptions options).ok = true) :
    options.name.isEmpty = false ∧ 1 ≤ options.capacity.toNat ∧
      1 ≤ options.messageMaxBytes.toNat := by
  unfold validateOptions at h
  split_ifs at h with hname hcap hmax
  · simp [Status.ok] at h
  · simp [Status.ok] at h
  · simp [Status.ok] at h
  · refine ⟨by simpa using hname, ?_, ?_⟩
    · exact Nat.one_le_iff_ne_zero.mpr fun hz => hcap (UInt32.toNat_inj.mp hz)
    · exact Nat.one_le_iff_ne_zero.mpr fun hz => hmax (UInt32.toNat_inj.mp hz)

theorem serverLayout_target (options : ChannelOptions) :
    (UInt32.ofNat (frameBytes options.messageMaxBytes.toNat) * options.capacity).toNat =
      frameBytes options.messageMaxBytes.toNat * options.capacity.toNat % 2 ^ 32 := by
  rw [UInt32.toNat_mul, UInt32.toNat_ofNat', Nat.mod_mul_mod]

theorem server_target {options : ChannelOptions} (htotal : totalBytes options ≠ 0) :
    ∃ target : UInt32, (serverLayout options).ringBytes = nextPow2 target ∧
      totalBytes options = sharedHeaderBytes + (nextPow2 target).toNat ∧
      (ringDemand options ≤ 2 ^ 31 ∧ target.toNat = ringDemand options ∨
        2 ^ 31 < ringDemand options ∧ 2 ^ 31 < target.toNat) := by
  unfold totalBytes at htotal ⊢
  dsimp only at htotal ⊢
  split at htotal
  · contradiction
  · rename_i hle
    rw [if_neg hle]
    have hdvd : 8 ∣ frameBytes options.messageMaxBytes.toNat := by
      rw [frameBytes_eq]
      omega
    have htarget := target_eq options.capacity.toNat_lt
      (frameBytes_max_le options.messageMaxBytes) hdvd (by omega)
    have hmul : ringDemand options =
        frameBytes options.messageMaxBytes.toNat * options.capacity.toNat :=
      Nat.mul_comm _ _
    have hofNat : UInt32.ofNat (frameBytes options.messageMaxBytes.toNat *
        options.capacity.toNat % 2 ^ 64) =
        UInt32.ofNat (frameBytes options.messageMaxBytes.toNat) * options.capacity := by
      apply UInt32.toNat_inj.mp
      rw [serverLayout_target, UInt32.toNat_ofNat', Nat.mod_eq_of_lt (by omega)]
      exact htarget.1.symm
    refine ⟨_, rfl, by rw [hofNat], ?_⟩
    rw [serverLayout_target, hmul, htarget.1]
    rcases htarget.2 with hsmall | hlarge
    · exact .inl ⟨hsmall, Nat.mod_eq_of_lt (by omega)⟩
    · exact .inr ⟨lt_of_lt_of_le hlarge (Nat.mod_le _ _), hlarge⟩

theorem serverLayout_geometry {options : ChannelOptions}
    (hvalid : (validateOptions options).ok = true) (htotal : totalBytes options ≠ 0)
    (hdemand : ringDemand options ≤ 2 ^ 31) :
    (∃ k, k ≤ 31 ∧ (serverLayout options).ringBytes.toNat = 2 ^ k) ∧
      ringDemand options ≤ (serverLayout options).ringBytes.toNat ∧
      sharedHeaderBytes + (serverLayout options).ringBytes.toNat = totalBytes options := by
  obtain ⟨target, hring, hbytes, hcase⟩ := server_target htotal
  obtain ⟨-, hcap, hmax⟩ := validateOptions_ok hvalid
  have hframe : 1 ≤ frameBytes options.messageMaxBytes.toNat := by
    rw [frameBytes_eq]
    omega
  have htarget : target.toNat = ringDemand options := by
    rcases hcase with ⟨-, h⟩ | ⟨h, -⟩
    · exact h
    · omega
  have hpos : 1 ≤ target.toNat := by
    rw [htarget]
    exact Nat.mul_pos hcap hframe
  obtain ⟨k, hk, hpow, hle⟩ := nextPow2_of_le hpos (by omega)
  rw [hring, hbytes]
  exact ⟨⟨k, hk, hpow⟩, by omega, rfl⟩

theorem serverLayout_mask (options : ChannelOptions)
    (hpos : 1 ≤ (serverLayout options).ringBytes.toNat) :
    (serverLayout options).ringMask.toNat =
      (serverLayout options).ringBytes.toNat - 1 := by
  have hle : (1 : UInt32) ≤ (serverLayout options).ringBytes :=
    UInt32.le_iff_toNat_le.mpr hpos
  exact UInt32.toNat_sub_of_le _ _ hle

/-- The power-of-two test of `MapAsClient`. -/
theorem and_pred_eq_zero {ring mask : UInt32} {k : Nat} (hring : ring.toNat = 2 ^ k)
    (hmask : mask.toNat = ring.toNat - 1) : ring &&& mask = 0 := by
  apply UInt32.toNat_inj.mp
  rw [UInt32.toNat_and, hmask, hring, Nat.and_two_pow_sub_one_eq_mod, Nat.mod_self]
  rfl

theorem flushOutbox_written (layout : HeaderLayout) (outbox : List Message)
    (hfit : ∀ message ∈ outbox, frameBytes message.length ≤ layout.ringBytes.toNat)
    (remaining : Nat) (ep : Endpoint) (w : World) :
    ∃ written,
      outbox =
        written ++ ((flushOutbox layout outbox remaining ep).run exec w).1.localOutbox ∧
      ((flushOutbox layout outbox remaining ep).run exec w).2.shm.sendOk % 2 ^ 64 =
        (w.shm.sendOk + written.length) % 2 ^ 64 := by
  induction outbox generalizing remaining ep w with
  | nil => exact ⟨[], rfl, rfl⟩
  | cons message rest ih =>
    cases remaining with
    | zero => exact ⟨[], rfl, rfl⟩
    | succ remaining =>
      rw [flushOutbox_cons_run]
      dsimp only
      rcases tryWriteOneToShared_outcome layout ep message w
        (hfit message (List.mem_cons_self ..)) with ⟨hst, hsend⟩ | ⟨hst, hsend⟩
      · rw [hst]
        obtain ⟨written, hout, hcount⟩ :=
          ih (fun m hm => hfit m (List.mem_cons_of_mem _ hm)) remaining ep
            ((tryWriteOneToShared layout ep message).run exec w).2
        refine ⟨message :: written, ?_, ?_⟩
        · simpa using hout
        · simp only [Status.ok_okStatus, ↓reduceIte, hcount, hsend, List.length_cons]
          omega
      · rw [hst]
        exact ⟨[], rfl, by
          simp only [queueFull, Status.ok, reduceCtorEq, decide_false, Bool.false_eq_true,
            ↓reduceIte, hsend, List.length_nil, Nat.add_zero]⟩

theorem sizingSound_of_le {ep ep' : Endpoint} {options : ChannelOptions}
    {create status : Status} {region : Region}
    (h : openServer ep options create = (status, ep', some region))
    (hdemand : ringDemand options ≤ 2 ^ 31) : SizingSound options region := by
  obtain ⟨hvalid, htotal, rfl⟩ := openServer_some h
  obtain ⟨⟨k, -, hpow⟩, hroom, hbytes⟩ := serverLayout_geometry hvalid htotal hdemand
  obtain ⟨hname, hcap, -⟩ := validateOptions_ok hvalid
  have hpos : 1 ≤ (serverLayout options).ringBytes.toNat := by
    rw [hpow]
    exact Nat.one_le_two_pow
  have hmask := serverLayout_mask options hpos
  -- one frame of the largest size is at most `capacity` of them
  have hfit : ∀ message : Message, message.length ≤ options.messageMaxBytes.toNat →
      frameBytes message.length ≤ (serverLayout options).ringBytes.toNat := by
    intro message hlen
    calc frameBytes message.length ≤ frameBytes options.messageMaxBytes.toNat :=
          frameBytes_mono hlen
      _ ≤ ringDemand options := Nat.le_mul_of_pos_left _ hcap
      _ ≤ _ := hroom
  refine ⟨⟨k, hpow⟩, hmask, hbytes, hroom, ?_, ?_, ?_⟩
  · intro client clientOptions probe remap hclosed hsame hprobe hremap
    have hne : (serverLayout options).ringBytes ≠ 0 := by
      intro hz
      rw [hz] at hpos
      simp at hpos
    have hand := and_pred_eq_zero hpow hmask
    unfold openClient mapAsClient
    simp only [hclosed, hsame, hname, hprobe, hremap, hne, Bool.false_eq_true, ↓reduceIte,
      Bool.not_true, false_or]
    rw [if_neg (by simp [serverLayout]), if_neg (by
      rw [ne_eq, not_not]
      exact hand)]
    rfl
  · intro sender message w hlen
    rcases tryWriteOneToShared_outcome (serverLayout options) sender message w
      (hfit message hlen) with ⟨hst, -⟩ | ⟨hst, -⟩
    · rw [hst]
      simp [Status.okStatus]
    · rw [hst]
      simp [queueFull]
  · intro sender budget w hlens
    exact flushOutbox_written _ _ (fun m hm => hfit m (hlens m hm)) budget sender w

/-- `OpenServer` publishes a sound ring exactly when `capacity` frames of the
largest size take at most `2 ^ 31` bytes. Above that it may still answer kOk,
with a ring of zero bytes. -/
theorem openServer_sound_iff {ep ep' : Endpoint} {options : ChannelOptions}
    {create status : Status} {region : Region}
    (h : openServer ep options create = (status, ep', some region)) :
    SizingSound options region ↔ ringDemand options ≤ 2 ^ 31 := by
  constructor
  · intro hsound
    by_contra hlarge
    obtain ⟨-, htotal, rfl⟩ := openServer_some h
    obtain ⟨target, hring, -, hcase⟩ := server_target htotal
    obtain ⟨k, hpow⟩ := hsound.pow
    have hzero : (serverLayout options).ringBytes.toNat = 0 := by
      rw [hring]
      exact nextPow2_of_gt (by omega)
    have := Nat.one_le_two_pow (n := k)
    dsimp only at hpow
    omega
  · exact sizingSound_of_le h

/-- 8 slots of 120 bytes: a sound ring of 1024 bytes. -/
theorem openServer_sound_small :
    ∃ ep' region, openServer {} { name := "c", capacity := 8, messageMaxBytes := 120 }
        .okStatus = (.okStatus, ep', some region) ∧
      SizingSound { name := "c", capacity := 8, messageMaxBytes := 120 } region := by
  have hopen : openServer {} { name := "c", capacity := 8, messageMaxBytes := 120 }
      .okStatus = (.okStatus, _, some _) := rfl
  exact ⟨_, _, hopen, (openServer_sound_iff hopen).mpr (by decide)⟩

/-- `2 ^ 19 + 1` slots of 4088 bytes need just over `2 ^ 31` bytes. `OpenServer`
answers kOk and publishes a ring of no bytes. -/
theorem openServer_unsound_at_two_pow_31 :
    ∃ ep' region, openServer {} { name := "c", capacity := 524289, messageMaxBytes := 4088 }
        .okStatus = (.okStatus, ep', some region) ∧
      region.layout.ringBytes = 0 ∧
      ¬ SizingSound { name := "c", capacity := 524289, messageMaxBytes := 4088 } region := by
  refine ⟨_, _, rfl, by decide, ?_⟩
  intro hsound
  have hroom := hsound.room
  revert hroom
  decide

end Corekit.Ipc
