import Corekit.Foundation.Audit
import Corekit.Ipc.WholeCalls

/-! `TryRecv` on a ring that holds anything at all. Nothing is assumed about the
bytes and nothing about where the indices stand, aligned or not, but that the
write index is a lap away from the end of its 64 bits. -/
namespace Corekit.Ipc
open Corekit.Api Corekit.Foundation

/-- The header of a server whose ring is a power of two. -/
structure Masked (layout : HeaderLayout) : Prop where
  pow : ∃ k, layout.ringBytes.toNat = 2 ^ k
  low : 16 ≤ layout.ringBytes.toNat
  ringMask : layout.ringMask.toNat = layout.ringBytes.toNat - 1

/-- What `TryRecv` may do to the memory it shares: the ring is only read, within
its bounds, the write index is left alone and the read index never goes back. -/
def Careful (ringBytes bufferSize : Nat) (w : World) : ShmOp → Prop
  | .loadU32 off => off + 4 ≤ ringBytes
  | .copyOut off len => off + len ≤ ringBytes ∧ len ≤ bufferSize
  | .storeReadIndex value => w.shm.readIndex ≤ value
  | .storeWriteIndex _ | .storeU32 _ _ | .copyIn _ _ => False
  | _ => True

structure Since (w₀ w : World) : Prop where
  ring : w.shm.ring = w₀.shm.ring
  writeIndex : w.shm.writeIndex = w₀.shm.writeIndex
  readIndex : w₀.shm.readIndex ≤ w.shm.readIndex
  recvs : w.recvs = w₀.recvs

structure Returned (bufferSize : Nat) (w₀ w : World) (result : Result Message) : Prop where
  ring : w.shm.ring = w₀.shm.ring
  writeIndex : w.shm.writeIndex = w₀.shm.writeIndex
  readIndex : w₀.shm.readIndex ≤ w.shm.readIndex
  recvs : w.recvs = w₀.recvs ++ [result]
  taken : ∀ message, result = .ok message → w₀.shm.readIndex < w.shm.readIndex ∧
    w.shm.readIndex ≤ w₀.shm.writeIndex ∧ message.length ≤ bufferSize

structure AtHead (layout : HeaderLayout) (bufferSize : Nat) (st : RecvLoop) (w : World) : Prop where
  locals : st = ⟨bufferSize, w.shm.readIndex, w.shm.writeIndex,
    layout.ringBytes.toNat - w.shm.readIndex % layout.ringBytes.toNat⟩
  pending : w.shm.readIndex < w.shm.writeIndex
  header : w.shm.readIndex % layout.ringBytes.toNat + 8 ≤ layout.ringBytes.toNat

section Call

variable {layout : HeaderLayout} {bufferSize : Nat} {w₀ w : World} {ep : Endpoint} {st : RecvLoop}

theorem Masked.and_mask (h : Masked layout) (index : Nat) :
    index &&& layout.ringMask.toNat = index % layout.ringBytes.toNat := by
  obtain ⟨k, hk⟩ := h.pow
  rw [h.ringMask, hk, Nat.and_two_pow_sub_one_eq_mod]

theorem Masked.contiguousFrom_eq (h : Masked layout) (index : Nat) :
    contiguousFrom layout index = layout.ringBytes.toNat - index % layout.ringBytes.toNat := by
  rw [contiguousFrom, h.and_mask]

/-- Where a step of the call leads: out with a result, or to the head of the loop
with less than `bound` bytes before it. -/
def Leads (layout : HeaderLayout) (bufferSize : Nat) (w₀ : World) (bound : Nat)
    (next : RecvNext × Endpoint) (w : World) : Prop :=
  Since w₀ w ∧ match next.1 with
    | .inl st => AtHead layout bufferSize st w ∧ st.write - st.read < bound
    | .inr (.error _) => True
    | .inr (.ok message) => w₀.shm.readIndex < w.shm.readIndex ∧
        w.shm.readIndex ≤ w₀.shm.writeIndex ∧ message.length ≤ bufferSize

variable {bound : Nat}

theorem advanceRead_audited (h : Masked layout)
    (hlap : w₀.shm.writeIndex + layout.ringBytes.toNat ≤ 2 ^ 64) (hsince : Since w₀ w)
    (hpending : w.shm.readIndex < w.shm.writeIndex)
    (hbound : w.shm.writeIndex - w.shm.readIndex ≤ bound) :
    (advanceRead layout ep bufferSize w.shm.readIndex
      (layout.ringBytes.toNat - w.shm.readIndex % layout.ringBytes.toNat)).Audited exec
        (Careful layout.ringBytes.toNat bufferSize) (Leads layout bufferSize w₀ bound) w := by
  have hlow := h.low
  have hmod := Nat.mod_lt w.shm.readIndex (show 0 < layout.ringBytes.toNat by omega)
  have hstart := lap_end_mod w.shm.readIndex (show 0 < layout.ringBytes.toNat by omega)
  have hnowrap : w.shm.readIndex + (layout.ringBytes.toNat -
      w.shm.readIndex % layout.ringBytes.toNat) < 2 ^ 64 := by
    have := hsince.writeIndex
    omega
  generalize hread : w.shm.readIndex + (layout.ringBytes.toNat -
    w.shm.readIndex % layout.ringBytes.toNat) = read at hnowrap hstart
  have hafter : Since w₀ { w with shm.readIndex := read } :=
    ⟨hsince.ring, hsince.writeIndex, by have := hsince.readIndex; dsimp only; omega, hsince.recvs⟩
  unfold advanceRead
  rw [hread, Nat.mod_eq_of_lt hnowrap]
  simp only [Cmd.bind_eq_bind, act_bind, loadWriteIndex_bind, Cmd.pure_eq_ret, Cmd.Audited, exec]
  refine ⟨by rw [Careful]; omega, trivial, .ite (fun _ => ⟨hafter, trivial⟩) fun hmore => ?_⟩
  refine ⟨hafter, ⟨?_, by dsimp only; omega, by dsimp only; omega⟩, by dsimp only; omega⟩
  rw [h.contiguousFrom_eq]

/-- The skip of a tail that is too short for a header, from an index that may
stand anywhere. -/
theorem skipShortTail_audited (h : Masked layout)
    (hlap : w₀.shm.writeIndex + layout.ringBytes.toNat ≤ 2 ^ 64) (hsince : Since w₀ w)
    (hpending : w.shm.readIndex < w.shm.writeIndex)
    (hbound : w.shm.writeIndex - w.shm.readIndex < bound) :
    (skipShortTail layout ep ⟨bufferSize, w.shm.readIndex, w.shm.writeIndex,
      layout.ringBytes.toNat - w.shm.readIndex % layout.ringBytes.toNat⟩).Audited exec
        (Careful layout.ringBytes.toNat bufferSize) (Leads layout bufferSize w₀ bound) w := by
  unfold skipShortTail
  split
  · exact advanceRead_audited h hlap hsince hpending (Nat.le_of_lt hbound)
  · rename_i hheader
    dsimp only [frameHeaderBytes] at hheader
    exact ⟨hsince, ⟨rfl, hpending, by omega⟩, hbound⟩

theorem tryRecv_audited (h : Masked layout)
    (hlap : w.shm.writeIndex + layout.ringBytes.toNat ≤ 2 ^ 64) (houtbox : ep.localOutbox = [])
    (buffer : RecvBuffer) (hbound : w.shm.writeIndex < bound) :
    (tryRecv layout ep buffer).Audited exec
      (Careful layout.ringBytes.toNat buffer.size.toNat)
      (Leads layout buffer.size.toNat w bound) w := by
  have hsince : Since w w := ⟨rfl, rfl, Nat.le_refl _, rfl⟩
  unfold tryRecv
  split
  · exact ⟨hsince, trivial⟩
  · split
    · exact ⟨hsince, trivial⟩
    · simp only [processIoOnce, houtbox, flushOutbox, Cmd.bind_eq_bind, Cmd.pure_eq_ret,
        Cmd.ret_bind, loadReadIndex_bind, loadWriteIndex_bind, Cmd.Audited, exec]
      refine ⟨trivial, trivial, .ite (fun _ => ⟨hsince, trivial⟩) fun hmore => ?_⟩
      rw [h.contiguousFrom_eq]
      exact skipShortTail_audited h hlap hsince (by omega) (by omega)

theorem takeFrame_audited {off required : Nat}
    (hlap : w₀.shm.writeIndex + layout.ringBytes.toNat ≤ 2 ^ 64) (hsince : Since w₀ w)
    (hpending : w.shm.readIndex < w.shm.writeIndex)
    (hframe : off + frameBytes required ≤ layout.ringBytes.toNat)
    (hcomplete : (w.shm.readIndex + frameBytes required) % 2 ^ 64 ≤ w.shm.writeIndex)
    (hfits : required ≤ bufferSize) :
    Cmd.Audited exec (Careful layout.ringBytes.toNat bufferSize)
      (Leads layout bufferSize w₀ bound)
      (do
        let payload ← if required > 0 then copyOut (off + frameHeaderBytes) required else pure []
        act (.storeReadIndex ((w.shm.readIndex + frameBytes required) % 2 ^ 64))
        act .addRecvOk
        return (.inr (.ok payload), ep)) w := by
  have hheader := header_le_frameBytes required
  have hwrite := hsince.writeIndex
  have hread := hsince.readIndex
  have hindex : (w.shm.readIndex + frameBytes required) % 2 ^ 64 =
      w.shm.readIndex + frameBytes required := Nat.mod_eq_of_lt (by omega)
  rw [hindex] at hcomplete ⊢
  have hdone : ∀ payload : Message, payload.length ≤ bufferSize →
      Leads layout bufferSize w₀ bound (.inr (.ok payload), ep)
        { w with shm := { w.shm with
          readIndex := w.shm.readIndex + frameBytes required
          recvOk := (w.shm.recvOk + 1) % 2 ^ 64 } } := by
    intro payload hlength
    refine ⟨⟨hsince.ring, hwrite, ?_, hsince.recvs⟩, ?_, ?_, hlength⟩
    · dsimp only
      omega
    · dsimp only
      omega
    · dsimp only
      omega
  have hstore : ∀ payload : Message, payload.length ≤ bufferSize →
      Cmd.Audited exec (Careful layout.ringBytes.toNat bufferSize)
        (Leads layout bufferSize w₀ bound)
        (do
          act (.storeReadIndex (w.shm.readIndex + frameBytes required))
          act .addRecvOk
          return (.inr (.ok payload), ep)) w := by
    intro payload hlength
    refine ⟨?_, trivial, hdone payload hlength⟩
    rw [Careful]
    omega
  refine .ite (fun hpos => ?_) fun hzero => hstore [] (Nat.zero_le _)
  refine ⟨?_, hstore _ ?_⟩
  · rw [Careful, frameHeaderBytes]
    omega
  · exact (Mem.read_length ..).trans_le hfits

theorem tryRecvRound_audited (h : Masked layout)
    (hlap : w₀.shm.writeIndex + layout.ringBytes.toNat ≤ 2 ^ 64) (hsince : Since w₀ w)
    (hhead : AtHead layout bufferSize st w) :
    (tryRecvRound layout ep st).Audited exec (Careful layout.ringBytes.toNat bufferSize)
      (Leads layout bufferSize w₀ (st.write - st.read)) w := by
  obtain ⟨rfl, hpending, hheader⟩ := hhead
  have hwrite := hsince.writeIndex
  have hlow := h.low
  unfold tryRecvRound
  simp only [h.and_mask]
  generalize hoff : w.shm.readIndex % layout.ringBytes.toNat = off at hheader
  refine ⟨by rw [Careful]; omega, ?_⟩
  refine .ite (fun hwrap => ?_) fun hwrap => ?_
  · rw [← hoff]
    refine .bind ((advanceRead_audited h hlap hsince hpending (Nat.le_refl _)).mono ?_)
    rintro ⟨next, ep⟩ w' ⟨hsince', hnext⟩
    cases next with
    | inr result => cases result <;> exact ⟨hsince', hnext⟩
    | inl st =>
      obtain ⟨⟨rfl, hpending', hheader'⟩, hless⟩ := hnext
      exact skipShortTail_audited h hlap hsince' hpending' hless
  · refine .ite (fun hmarker => ⟨hsince, trivial⟩) fun hmarker => ⟨?_, ?_⟩
    · rw [Careful]
      omega
    refine .ite (fun htoo => ⟨hsince, trivial⟩) fun hmax => ?_
    refine .ite (fun hincomplete => ⟨hsince, trivial⟩) fun hcomplete => ?_
    refine .ite (fun hsmall => ⟨hsince, trivial⟩) fun hfits => ?_
    have hframe : frameBytes (w.shm.ring.loadLE 4 off) ≤ layout.ringBytes.toNat - off :=
      Nat.le_of_not_lt (not_or.mp hcomplete).1
    have hend : off + frameBytes (w.shm.ring.loadLE 4 off) ≤ layout.ringBytes.toNat := by
      clear hcomplete hfits hmax
      omega
    have hpublished : (w.shm.readIndex + frameBytes (w.shm.ring.loadLE 4 off)) % 2 ^ 64 ≤
        w.shm.writeIndex := Nat.le_of_not_lt (not_or.mp hcomplete).2
    exact takeFrame_audited hlap hsince hpending hend hpublished (Nat.le_of_not_lt hfits)

def InLoop (layout : HeaderLayout) (bufferSize : Nat) (w₀ : World) (w : World) : RecvPoint → Prop
  | .loop _ st => AtHead layout bufferSize st w ∧ Since w₀ w
  | .idle _ => False

def RecvPoint.pending : RecvPoint → Nat
  | .loop _ st => st.write - st.read
  | .idle _ => 0

theorem settle_audited {c : ShmCmd (RecvNext × Endpoint)}
    (h : c.Audited exec (Careful layout.ringBytes.toNat bufferSize)
      (Leads layout bufferSize w₀ bound) w) :
    (c >>= settleRecv).Audited exec (Careful layout.ringBytes.toNat bufferSize)
      ((consumer layout).Settled RecvPoint.returned
        (fun _ w => ∃ result, Returned bufferSize w₀ w result)
        (fun point w => InLoop layout bufferSize w₀ w point)
        (fun point _ => point.pending) bound) w := by
  refine .bind (h.mono ?_)
  rintro ⟨next, ep⟩ w ⟨hsince, hnext⟩
  have hreturn : ∀ result : Result Message, (∀ message, result = .ok message →
      w₀.shm.readIndex < w.shm.readIndex ∧ w.shm.readIndex ≤ w₀.shm.writeIndex ∧
        message.length ≤ bufferSize) →
      Returned bufferSize w₀ { w with recvs := w.recvs ++ [result] } result := by
    intro result hok
    exact ⟨hsince.ring, hsince.writeIndex, hsince.readIndex, by rw [hsince.recvs], hok⟩
  cases next with
  | inl st => exact .inr ⟨rfl, ⟨hnext.1, hsince⟩, hnext.2⟩
  | inr result =>
    refine ⟨trivial, .inl ⟨ep, rfl, result, hreturn result ?_⟩⟩
    rintro message rfl
    exact hnext

/-- `recvCall` with the operations it makes, each with the state before it. -/
def recvTrace (layout : HeaderLayout) (rounds : Nat) (ep : Endpoint) (buffer : RecvBuffer)
    (w : World) : Option (Endpoint × World × List (World × ShmOp)) :=
  (consumer layout).finish (Handler.traced exec) buffer RecvPoint.returned rounds
    (tryRecv layout ep buffer >>= settleRecv) (w, [])

theorem recvTrace_recvCall {rounds : Nat} {buffer : RecvBuffer} {ep' : Endpoint} {w' : World}
    {trace : List (World × ShmOp)}
    (h : recvTrace layout rounds ep buffer w = some (ep', w', trace)) :
    recvCall layout rounds ep buffer w = some (ep', w') := by
  have hsame := (consumer layout).finish_traced RecvPoint.returned buffer exec rounds
    (tryRecv layout ep buffer >>= settleRecv) w []
  exact hsame.symm.trans (congrArg (Option.map _) h)

end Call

/-- Whatever the ring holds and wherever the indices stand, `TryRecv` comes to an
end, reads only bytes of the ring and leaves with the read index in order. -/
theorem tryRecv_in_bounds {server server' : Endpoint} {create status : Status} {region : Region}
    (hmap : mapAsServer server create = (status, server', some region))
    (hpow : ∃ k, region.layout.ringBytes.toNat = 2 ^ k)
    (hlow : 16 ≤ region.layout.ringBytes.toNat) {w : World}
    (hlap : w.shm.writeIndex + region.layout.ringBytes.toNat ≤ 2 ^ 64) {ep : Endpoint}
    (houtbox : ep.localOutbox = []) (buffer : RecvBuffer) :
    ∃ rounds ep' w' trace result,
      recvCall region.layout rounds ep buffer w = some (ep', w') ∧
      recvTrace region.layout rounds ep buffer w = some (ep', w', trace) ∧
      (∀ x ∈ trace, Careful region.layout.ringBytes.toNat buffer.size.toNat x.1 x.2) ∧
      Returned buffer.size.toNat w w' result := by
  have hlayout : region.layout = serverLayout server.options := by
    unfold mapAsServer at hmap
    dsimp only at hmap
    split_ifs at hmap
    · cases hmap
    · rw [← Option.some.inj (congrArg (fun r => r.2.2) hmap)]
    · cases hmap
  have hmasked : Masked region.layout := by
    refine ⟨hpow, hlow, ?_⟩
    rw [hlayout] at hlow ⊢
    exact serverLayout_mask _ (by omega)
  have hfirst := settle_audited (tryRecv_audited hmasked hlap houtbox buffer (Nat.lt_succ_self _))
  have hround : ∀ (point : RecvPoint) (w₁ : World),
      InLoop region.layout buffer.size.toNat w w₁ point →
      ∃ next, (consumer region.layout).resume point buffer = some next ∧
        next.Audited exec (Careful region.layout.ringBytes.toNat buffer.size.toNat)
          ((consumer region.layout).Settled RecvPoint.returned
            (fun _ w₁ => ∃ result, Returned buffer.size.toNat w w₁ result)
            (fun point w₁ => InLoop region.layout buffer.size.toNat w w₁ point)
            (fun point _ => point.pending) point.pending) w₁ := by
    intro point w₁ hpoint
    cases point with
    | idle ep => exact absurd hpoint id
    | loop ep st =>
      exact ⟨_, rfl, settle_audited (tryRecvRound_audited hmasked hlap hpoint.2 hpoint.1)⟩
  obtain ⟨ep', w', trace, hfinish, ⟨result, hreturned⟩, hchecks⟩ :=
    (consumer region.layout).finish_audited RecvPoint.returned buffer hround hfirst
      (List.forall_mem_nil _)
  exact ⟨_, ep', w', trace, result, recvTrace_recvCall hfinish, hfinish, hchecks, hreturned⟩

/-- A ring of sixteen bytes full of wrap markers, read from the middle of a word. -/
def markedWorld : World := { shm := ⟨40, 3, 0, 0, 0, fun i => if i % 4 = 0 then 1 else 0⟩ }

theorem tryRecv_in_bounds_sixteen :
    ∃ rounds ep' w' trace result,
      recvCall (serverLayout { name := "a", capacity := 1, messageMaxBytes := 8 }) rounds
        { opened := true, headerMapped := true } ⟨false, 8⟩ markedWorld = some (ep', w') ∧
      recvTrace (serverLayout { name := "a", capacity := 1, messageMaxBytes := 8 }) rounds
        { opened := true, headerMapped := true } ⟨false, 8⟩ markedWorld = some (ep', w', trace) ∧
      (∀ x ∈ trace, Careful 16 8 x.1 x.2) ∧ Returned 8 markedWorld w' result := by
  have hring : (serverLayout { name := "a", capacity := 1, messageMaxBytes := 8 }).ringBytes.toNat
      = 16 := by decide +kernel
  have htotal : totalBytes { name := "a", capacity := 1, messageMaxBytes := 8 } ≠ 0 := by
    decide +kernel
  have hmap : mapAsServer { options := { name := "a", capacity := 1, messageMaxBytes := 8 } }
      .okStatus = (.okStatus, { options := { name := "a", capacity := 1, messageMaxBytes := 8 }
                                opened := true
                                headerMapped := true },
        some ⟨serverLayout { name := "a", capacity := 1, messageMaxBytes := 8 }, clearedShm,
          totalBytes { name := "a", capacity := 1, messageMaxBytes := 8 }⟩) := by
    rw [mapAsServer, if_neg htotal]
    rfl
  have hlap : markedWorld.shm.writeIndex +
      (serverLayout { name := "a", capacity := 1, messageMaxBytes := 8 }).ringBytes.toNat ≤
        2 ^ 64 := by
    rw [hring]
    decide
  have houtbox : ({ opened := true, headerMapped := true } : Endpoint).localOutbox = [] := rfl
  have hcall := tryRecv_in_bounds hmap ⟨4, hring⟩ hring.ge hlap houtbox ⟨false, 8⟩
  dsimp only at hcall
  rw [hring] at hcall
  exact hcall

end Corekit.Ipc
