import Corekit.Ipc.Sessions

/-! What the names of shared memory and the channels agree on, in every state
that the interleaved calls of any number of channels reach. -/
namespace Corekit.Ipc
open Corekit.Api Corekit.Foundation

namespace ShmObject

variable (object : ShmObject)

def final : HeaderLayout := serverLayout object.made

def key : String := shmKey (buildSharedName object.made.name)

/-- What only grows in an object. -/
structure Grows (object object' : ShmObject) : Prop where
  made : object'.made = object.made
  stores : object.stores ≤ object'.stores
  uses : object.uses ≤ object'.uses

/-- What only the channel that makes the object changes. -/
structure Kept (object object' : ShmObject) : Prop extends Grows object object' where
  size : object'.size = object.size
  full : object'.stores = object.stores

theorem Grows.refl : Grows object object := ⟨rfl, le_rfl, le_rfl⟩

theorem Kept.refl : Kept object object := ⟨.refl object, rfl, rfl⟩

theorem Kept.used (shm : Shm) : Kept object { object with shm := shm, uses := object.uses + 1 } :=
  ⟨⟨rfl, le_rfl, Nat.le_succ _⟩, rfl, rfl⟩

end ShmObject

theorem clearedShm_publish (done : Nat) : clearedShm.publish done = clearedShm := by
  unfold Shm.publish
  split <;> rfl

def publishedLayout (final : HeaderLayout) : Nat → HeaderLayout
  | 0 => emptyLayout
  | done + 1 => (publishedLayout final done).publish final done

section Published

variable {final : HeaderLayout} {done : Nat}

theorem publishedLayout_final (h : 5 ≤ done) :
    (publishedLayout final done).capacity = final.capacity ∧
    (publishedLayout final done).messageMaxBytes = final.messageMaxBytes ∧
    (publishedLayout final done).ringBytes = final.ringBytes := by
  induction done, h using Nat.le_induction with
  | base => exact ⟨rfl, rfl, rfl⟩
  | succ done h ih =>
    obtain ⟨k, rfl⟩ := Nat.exists_eq_add_of_le' h
    cases k <;> exact ih

theorem publishedLayout_all (h : 6 ≤ done) : publishedLayout final done = final := by
  induction done, h using Nat.le_induction with
  | base => rfl
  | succ done h ih =>
    obtain ⟨k, rfl⟩ := Nat.exists_eq_add_of_le' h
    exact ih

/-- The ring size is stored after the other constants that the client reads. -/
theorem five_le_of_ringBytes (h : (publishedLayout final done).ringBytes ≠ 0) : 5 ≤ done := by
  by_contra hlt
  obtain rfl | rfl | rfl | rfl | rfl : done = 0 ∨ done = 1 ∨ done = 2 ∨ done = 3 ∨ done = 4 := by
    omega
  all_goals exact h rfl

end Published

theorem normalizeName_ne_empty (name : String) : normalizeName name ≠ "" := by
  unfold normalizeName
  split
  · rename_i hslash
    rintro rfl
    revert hslash
    decide
  · simp

structure Prepared (ep : Endpoint) : Prop where
  closed : ep.opened = false
  sharedName : ep.sharedName = buildSharedName ep.options.name
  outbox : ep.localOutbox = []
  pendingDrop : ep.localPendingDrop = 0
  named : ep.options.name.isEmpty = false

structure ServerReady (ep : Endpoint) : Prop extends Prepared ep where
  valid : (validateOptions ep.options).ok = true
  total : totalBytes ep.options ≠ 0

theorem ServerReady.mapped {ep : Endpoint} (h : ServerReady ep) :
    ServerReady { ep with headerMapped := true } :=
  ⟨⟨h.closed, h.sharedName, h.outbox, h.pendingDrop, h.named⟩, h.valid, h.total⟩

structure Read (object : ShmObject) (ep : Endpoint) (done : Nat) (left : UInt32) : Prop where
  bound : done ≤ 7
  stores : 3 ≤ done → 5 ≤ object.stores
  ring : 3 ≤ done → object.final.ringBytes ≠ 0
  left : done = 4 → left = object.final.ringBytes
  power : 5 ≤ done → object.final.ringBytes &&& (object.final.ringBytes - 1) = 0
  capacity : 6 ≤ done → ep.options.capacity = object.final.capacity
  maxBytes : 7 ≤ done → ep.options.messageMaxBytes = object.final.messageMaxBytes

namespace Session

structure Makes (object : ShmObject) (ep : Endpoint) (size stores : Nat) : Prop where
  ready : ServerReady ep
  made : object.made = ep.options
  size : object.size = size
  stores : object.stores = stores

structure Found (object : ShmObject) (ep : Endpoint) (o count : Nat) (probed : Option Nat) :
    Prop where
  prepared : Prepared ep
  probed : probed = some o
  old : o < count
  key : object.key = shmKey ep.sharedName

def ownBackend (ep : Endpoint) (o : Nat) : PosixShmBackend :=
  ⟨some o, some o, totalBytes ep.options, normalizeName ep.sharedName, true⟩

def clientBackend (ep : Endpoint) (o bytes : Nat) : PosixShmBackend :=
  ⟨some o, some o, bytes, normalizeName ep.sharedName, false⟩

def afterOpen (ep : Endpoint) : Endpoint := { ep with headerMapped := true, opened := true }

structure Keeps (uses : Nat) (ep ep' : Endpoint) : Prop where
  fixed : ∃ members, ep' = ep.withLocal members
  fresh : uses = 0 → ep' = ep

theorem Keeps.refl (uses : Nat) (ep : Endpoint) : Keeps uses ep ep := ⟨⟨⟨_, _, _, _⟩, rfl⟩, fun _ => rfl⟩

theorem Keeps.mono {uses uses' : Nat} {ep ep' : Endpoint} (h : Keeps uses ep ep')
    (hle : uses ≤ uses') : Keeps uses' ep ep' :=
  ⟨h.fixed, fun hzero => h.fresh (Nat.eq_zero_of_le_zero (hzero ▸ hle))⟩

def Serving (s : ShmSystem) (c : Session) (ep : Endpoint) (o : Nat) : Prop :=
  Makes (s.objects o) ep (totalBytes ep.options) headerStores ∧
    Keeps (s.objects o).uses (afterOpen ep) c.ep ∧ c.backend = ownBackend ep o

/-- The channel is open as a client. It has what it read of object `o`, and maps
that object unless the name was unlinked in between. -/
def Attached (s : ShmSystem) (c : Session) (ep : Endpoint) (o mapped : Nat) : Prop :=
  Found (s.objects o) ep o s.count c.probed ∧ Read (s.objects o) ep 7 0 ∧
    Keeps (s.objects mapped).uses (afterOpen ep) c.ep ∧
    c.backend = clientBackend ep mapped
      (sharedHeaderBytes + (s.objects o).final.ringBytes.toNat) ∧
    (s.names (s.objects o).key = some o → mapped = o) ∧ mapped < s.count

/-- What holds of a channel, by the place where it stands. -/
def Fits (s : ShmSystem) (c : Session) : Prop :=
  match c.pc with
  | .idle => (c.ep.opened = false ∧ c.backend = {}) ∨ (∃ ep o, Serving s c ep o) ∨
      ∃ ep o mapped, Attached s c ep o mapped
  | .create => ServerReady c.ep ∧ c.backend = {}
  | .truncate o => Makes (s.objects o) c.ep 0 0 ∧ c.backend = {}
  | .mapNew o => Makes (s.objects o) c.ep (totalBytes c.ep.options) 0 ∧ c.backend = {}
  | .clear o => Makes (s.objects o) c.ep (totalBytes c.ep.options) 0 ∧ c.backend = ownBackend c.ep o
  | .publish o done => Makes (s.objects o) c.ep (totalBytes c.ep.options) done ∧
      c.ep.headerMapped = true ∧ done < headerStores ∧ c.backend = ownBackend c.ep o
  | .probeOpen => Prepared c.ep ∧ c.backend = {}
  | .probeMap o => Found (s.objects o) c.ep o s.count c.probed ∧ c.backend = {}
  | .read o done left => Found (s.objects o) c.ep o s.count c.probed ∧
      Read (s.objects o) c.ep done left ∧ c.backend = clientBackend c.ep o sharedHeaderBytes
  | .remapOpen total => ∃ o, Found (s.objects o) c.ep o s.count c.probed ∧
      Read (s.objects o) c.ep 7 0 ∧
      total = sharedHeaderBytes + (s.objects o).final.ringBytes.toNat ∧ c.backend = {}
  | .remapMap total mapped => ∃ o, Found (s.objects o) c.ep o s.count c.probed ∧
      Read (s.objects o) c.ep 7 0 ∧
      total = sharedHeaderBytes + (s.objects o).final.ringBytes.toNat ∧ c.backend = {} ∧
      (s.names (s.objects o).key = some o → mapped = o) ∧ mapped < s.count
  | .sigbus => c.ep.opened = false ∧ c.backend.isOwner = false

section Owned

variable {c : Session} {ep : Endpoint} {o : Nat}

theorem owned_truncate (h : c.pc = .truncate o) : c.owned = some (shmKey c.ep.sharedName, o) := by
  simp [owned, h]

theorem owned_mapNew (h : c.pc = .mapNew o) : c.owned = some (shmKey c.ep.sharedName, o) := by
  simp [owned, h]

theorem owned_eq (htruncate : ∀ o, c.pc ≠ .truncate o) (hmap : ∀ o, c.pc ≠ .mapNew o) :
    c.owned =
      if c.backend.isOwner then c.backend.base.map fun o => (cStr c.backend.shmName, o)
      else none := by
  unfold owned
  split
  · exact absurd ‹_› (htruncate _)
  · exact absurd ‹_› (hmap _)
  · rfl

theorem owned_clear (h : c.pc = .clear o) (hbackend : c.backend = ownBackend ep o) :
    c.owned = some (shmKey ep.sharedName, o) := by
  rw [owned_eq (by simp [h]) (by simp [h]), hbackend]
  rfl

theorem owned_publish {done : Nat} (h : c.pc = .publish o done)
    (hbackend : c.backend = ownBackend ep o) : c.owned = some (shmKey ep.sharedName, o) := by
  rw [owned_eq (by simp [h]) (by simp [h]), hbackend]
  rfl

theorem owned_serving (h : c.pc = .idle) (hbackend : c.backend = ownBackend ep o) :
    c.owned = some (shmKey ep.sharedName, o) := by
  rw [owned_eq (by simp [h]) (by simp [h]), hbackend]
  rfl

theorem owned_none (htruncate : ∀ o, c.pc ≠ .truncate o) (hmap : ∀ o, c.pc ≠ .mapNew o)
    (hother : c.backend.isOwner = false) : c.owned = none := by
  rw [owned_eq htruncate hmap, hother]
  rfl

theorem owned_answer (status : Status) (h : c.pc = .idle) : (c.answer status).owned = c.owned := by
  rw [owned_eq (c := c) (by simp [h]) (by simp [h]),
    owned_eq (c := c.answer status) (by simp [answer]) (by simp [answer])]
  rfl

end Owned

end Session

theorem Prepared.taken {ep : Endpoint} (h : Prepared ep) :
    { ep with
      options := ep.options
      sharedName := buildSharedName ep.options.name
      localOutbox := []
      localPendingDrop := 0 } = ep := by
  rw [← h.sharedName, ← h.outbox, ← h.pendingDrop]

theorem ServerReady.openServer_eq {ep : Endpoint} (h : ServerReady ep) :
    openServer ep ep.options .okStatus = (.okStatus, Session.afterOpen ep,
      some ⟨serverLayout ep.options, clearedShm, totalBytes ep.options⟩) := by
  unfold openServer
  rw [if_neg (by simp [h.closed]), if_pos h.valid, h.taken]
  unfold mapAsServer
  rw [if_neg h.total]
  rfl

theorem Read.openClient_eq {object : ShmObject} {ep : Endpoint} (hread : Read object ep 7 0)
    (h : Prepared ep) (bytes : Nat) :
    openClient ep ep.options ⟨object.final, clearedShm, bytes⟩ .okStatus .okStatus =
      (.okStatus, Session.afterOpen ep) := by
  have hring := hread.ring (by omega)
  have hpower := hread.power (by omega)
  unfold openClient
  rw [if_neg (by simp [h.closed]), if_neg (by simp [h.named]), h.taken]
  unfold mapAsClient
  dsimp only
  rw [if_neg (by decide), if_neg (by simp [ShmObject.final, serverLayout]),
    if_neg (by simp [hring, hpower]), if_neg (by decide), ← hread.capacity (by omega),
    ← hread.maxBytes (by omega)]
  rfl

namespace ShmSystem
open Session

def registry (s : ShmSystem) : Registry Nat String :=
  ⟨s.names, fun i => (s.sessions i).owned, s.count⟩

structure Sound (s : ShmSystem) : Prop where
  exclusive : s.registry.Exclusive
  keyed : ∀ i n o, (s.sessions i).owned = some (n, o) → n = (s.objects o).key
  layouts : ∀ o, (s.objects o).layout = publishedLayout (s.objects o).final (s.objects o).stores
  cleared : ∀ o, (s.objects o).uses = 0 → (s.objects o).shm = clearedShm
  fits : ∀ i, Fits s (s.sessions i)

theorem Sound.start : Sound {} := by
  refine ⟨⟨?_, ?_, ?_⟩, ?_, fun _ => rfl, fun _ _ => rfl, fun _ => .inl ⟨rfl, rfl⟩⟩ <;>
    simp [registry, Session.owned]

structure Frame (s s' : ShmSystem) (j : Nat) : Prop where
  grows : ∀ o < s.count, (s.objects o).Grows (s'.objects o)
  own : ∀ n o, (s.sessions j).owned = some (n, o) → (s.objects o).Kept (s'.objects o)
  count : s.count ≤ s'.count
  bound : ∀ n o, o < s.count → s'.names n = some o → s.names n = some o

namespace Frame

variable {s s' : ShmSystem} {j o : Nat} {ep : Endpoint}

theorem final (h : Frame s s' j) (ho : o < s.count) :
    (s'.objects o).final = (s.objects o).final := by
  simp only [ShmObject.final, (h.grows o ho).made]

theorem key (h : Frame s s' j) (ho : o < s.count) : (s'.objects o).key = (s.objects o).key := by
  simp only [ShmObject.key, (h.grows o ho).made]

theorem found (h : Frame s s' j) {probed : Option Nat}
    (hfound : Found (s.objects o) ep o s.count probed) :
    Found (s'.objects o) ep o s'.count probed where
  prepared := hfound.prepared
  probed := hfound.probed
  old := hfound.old.trans_le h.count
  key := (h.key hfound.old).trans hfound.key

theorem read (h : Frame s s' j) (ho : o < s.count) {done : Nat} {left : UInt32}
    (hread : Read (s.objects o) ep done left) : Read (s'.objects o) ep done left := by
  obtain ⟨hbound, hstores, hring, hleft, hpower, hcapacity, hmax⟩ := hread
  refine ⟨hbound, fun hd => (hstores hd).trans (h.grows o ho).stores, ?_, ?_, ?_, ?_, ?_⟩ <;>
    rw [h.final ho] <;> assumption

theorem makes (h : Frame s s' j) {name : String} {size stores : Nat}
    (howned : (s.sessions j).owned = some (name, o)) (hmakes : Makes (s.objects o) ep size stores) :
    Makes (s'.objects o) ep size stores := by
  have hkept := h.own _ o howned
  exact ⟨hmakes.ready, hkept.made.trans hmakes.made, hkept.size.trans hmakes.size,
    hkept.full.trans hmakes.stores⟩

theorem kept (h : Frame s s' j) (ho : o < s.count) {mapped : Nat}
    (hkept : s.names (s.objects o).key = some o → mapped = o) :
    s'.names (s'.objects o).key = some o → mapped = o := by
  rw [h.key ho]
  exact fun hbound => hkept (h.bound _ o ho hbound)

theorem fits (h : Frame s s' j) (hfits : Fits s (s.sessions j)) : Fits s' (s.sessions j) := by
  unfold Fits at hfits ⊢
  split at hfits
  case h_1 hpc =>
    rcases hfits with hclosed | ⟨ep, o, hmakes, hep, hbackend⟩ |
      ⟨ep, o, mapped, hfound, hread, hep, hbackend, hkept, hmapped⟩
    · exact .inl hclosed
    · have howned := owned_serving hpc hbackend
      exact .inr (.inl ⟨ep, o, h.makes howned hmakes, hep.mono (h.own _ o howned).uses, hbackend⟩)
    · refine .inr (.inr ⟨ep, o, mapped, h.found hfound, h.read hfound.old hread,
        hep.mono (h.grows mapped hmapped).uses, ?_, h.kept hfound.old hkept,
        hmapped.trans_le h.count⟩)
      rw [h.final hfound.old]
      exact hbackend
  case h_2 => exact hfits
  case h_3 hpc => exact ⟨h.makes (owned_truncate hpc) hfits.1, hfits.2⟩
  case h_4 hpc => exact ⟨h.makes (owned_mapNew hpc) hfits.1, hfits.2⟩
  case h_5 hpc => exact ⟨h.makes (owned_clear hpc hfits.2) hfits.1, hfits.2⟩
  case h_6 o done hpc =>
    obtain ⟨hmakes, hmapped, hdone, hbackend⟩ := hfits
    exact ⟨h.makes (owned_publish hpc hbackend) hmakes, hmapped, hdone, hbackend⟩
  case h_7 => exact hfits
  case h_8 => exact ⟨h.found hfits.1, hfits.2⟩
  case h_9 => exact ⟨h.found hfits.1, h.read hfits.1.old hfits.2.1, hfits.2.2⟩
  case h_10 =>
    obtain ⟨o, hfound, hread, htotal, hbackend⟩ := hfits
    exact ⟨o, h.found hfound, h.read hfound.old hread, by rw [h.final hfound.old]; exact htotal,
      hbackend⟩
  case h_11 =>
    obtain ⟨o, hfound, hread, htotal, hbackend, hkept, hmapped⟩ := hfits
    exact ⟨o, h.found hfound, h.read hfound.old hread, by rw [h.final hfound.old]; exact htotal,
      hbackend, h.kept hfound.old hkept, hmapped.trans_le h.count⟩
  case h_12 => exact hfits

end Frame

namespace Sound

variable {s s' : ShmSystem} {i o : Nat} {c : Session}

theorem of_step (h : s.Sound) (hsessions : s'.sessions = Function.update s.sessions i c)
    (hnames : Registry.Step s.registry s'.registry) (hcount : s.count ≤ s'.count)
    (hgrows : ∀ o < s.count, (s.objects o).Grows (s'.objects o))
    (hothers : ∀ o < s.count, (∀ n, (s.sessions i).owned ≠ some (n, o)) →
      (s.objects o).Kept (s'.objects o))
    (hlayouts : ∀ o,
      (s'.objects o).layout = publishedLayout (s'.objects o).final (s'.objects o).stores)
    (hcleared : ∀ o, (s'.objects o).uses = 0 → (s'.objects o).shm = clearedShm)
    (hkeyed : ∀ n o, c.owned = some (n, o) → n = (s'.objects o).key) (hfits : Fits s' c) :
    s'.Sound := by
  have hframe : ∀ j, j ≠ i → Frame s s' j := by
    intro j hj
    refine ⟨hgrows, fun n o hown => ?_, hcount,
      fun n o ho hbound => hnames.bound_before ho hbound⟩
    exact hothers o (h.exclusive.made j n o hown) fun m hother =>
      hj (h.exclusive.single j i n m o hown hother)
  refine ⟨hnames.exclusive h.exclusive, fun j n o hown => ?_, hlayouts, hcleared, fun j => ?_⟩
  · rw [hsessions] at hown
    by_cases hj : j = i
    · subst hj
      rw [Function.update_self] at hown
      exact hkeyed n o hown
    · rw [Function.update_of_ne hj] at hown
      rw [(hframe j hj).key (h.exclusive.made j n o hown)]
      exact h.keyed j n o hown
  · rw [hsessions]
    by_cases hj : j = i
    · subst hj
      rw [Function.update_self]
      exact hfits
    · rw [Function.update_of_ne hj]
      exact (hframe j hj).fits (h.fits j)

theorem holds_update (s : ShmSystem) (i : Nat) (c : Session) :
    (fun j => (Function.update s.sessions i c j).owned) =
      Function.update (fun j => (s.sessions j).owned) i c.owned := by
  funext j
  by_cases hj : j = i
  · subst hj
    simp
  · simp [hj]

theorem put (h : s.Sound) (howned : c.owned = (s.sessions i).owned) (hfits : Fits s c) :
    (s.put i c).Sound := by
  have hsame : (s.put i c).registry = s.registry := by
    simp only [registry, ShmSystem.put, holds_update, howned, Function.update_eq_self]
  refine h.of_step rfl (hsame ▸ .keep) le_rfl (fun _ _ => .refl _) (fun _ _ _ => .refl _)
    h.layouts h.cleared (fun n o hown => ?_) hfits
  exact h.keyed i n o (howned ▸ hown)

theorem put_free (h : s.Sound) (hbefore : (s.sessions i).owned = none) (hafter : c.owned = none)
    (hfits : Fits s c) : (s.put i c).Sound :=
  h.put (hafter.trans hbefore.symm) hfits

theorem drop (h : s.Sound) {n : String} (howned : (s.sessions i).owned = some (n, o))
    (hidle : c.pc = .idle) (hclosed : c.ep.opened = false) (hbackend : c.backend = {}) :
    ((s.unlink n).put i c).Sound := by
  have hnone : c.owned = none := by simp [Session.owned, hidle, hbackend]
  have hnames : Registry.Step s.registry ((s.unlink n).put i c).registry := by
    simp only [registry, ShmSystem.put, unlink, holds_update, hnone]
    exact .release i n o howned
  refine h.of_step rfl hnames le_rfl (fun _ _ => .refl _) (fun _ _ _ => .refl _) h.layouts
    h.cleared (fun n o hown => ?_) ?_
  · rw [hnone] at hown
    cases hown
  · simp only [Fits, hidle]
    exact .inl ⟨hclosed, hbackend⟩

theorem write (h : s.Sound) {n : String} {cell : ShmObject}
    (howned : (s.sessions i).owned = some (n, o)) (hafter : c.owned = (s.sessions i).owned)
    (hgrows : (s.objects o).Grows cell)
    (hlayout : cell.layout = publishedLayout cell.final cell.stores)
    (hcleared : cell.uses = 0 → cell.shm = clearedShm)
    (hfits : Fits (s.setObject o cell) c) : ((s.setObject o cell).put i c).Sound := by
  have hsame : ((s.setObject o cell).put i c).registry = s.registry := by
    simp only [registry, ShmSystem.put, setObject, holds_update, hafter, Function.update_eq_self]
  have hother : ∀ p, p ≠ o → (s.setObject o cell).objects p = s.objects p :=
    fun p hp => Function.update_of_ne hp ..
  have hself : (s.setObject o cell).objects o = cell := Function.update_self ..
  refine h.of_step rfl (hsame ▸ .keep) le_rfl (fun p _ => ?_) (fun p _ hp => ?_) (fun p => ?_)
    (fun p => ?_) (fun m p hown => ?_) hfits
  · change (s.objects p).Grows ((s.setObject o cell).objects p)
    by_cases hp : p = o
    · rw [hp, hself]
      exact hgrows
    · rw [hother p hp]
      exact .refl _
  · change (s.objects p).Kept ((s.setObject o cell).objects p)
    rw [hother p fun heq => hp n (heq ▸ howned)]
    exact .refl _
  · change ((s.setObject o cell).objects p).layout =
      publishedLayout ((s.setObject o cell).objects p).final ((s.setObject o cell).objects p).stores
    by_cases hp : p = o
    · rw [hp, hself]
      exact hlayout
    · rw [hother p hp]
      exact h.layouts p
  · change ((s.setObject o cell).objects p).uses = 0 → ((s.setObject o cell).objects p).shm = _
    by_cases hp : p = o
    · rw [hp, hself]
      exact hcleared
    · rw [hother p hp]
      exact h.cleared p
  · rw [hafter] at hown
    change m = ((s.setObject o cell).objects p).key
    rw [h.keyed i m p hown]
    by_cases hp : p = o
    · rw [hp, hself, ShmObject.key, ShmObject.key, hgrows.made]
    · rw [hother p hp]

theorem make (h : s.Sound) (hpc : (s.sessions i).pc = .create)
    (hfree : s.names (shmKey (s.sessions i).ep.sharedName) = none) :
    (s.createOpen i .done).Sound := by
  have hfits := h.fits i
  simp only [Fits, hpc] at hfits
  obtain ⟨hready, hbackend⟩ := hfits
  have hnone : (s.sessions i).owned = none := by simp [Session.owned, hpc, hbackend]
  have hold : ∀ o < s.count, (s.createOpen i .done).objects o = s.objects o := by
    intro o ho
    simp only [createOpen, hfree, Option.isSome_none, Bool.false_eq_true, if_false]
    exact Function.update_of_ne ho.ne ..
  have hcell : (s.createOpen i .done).objects s.count = { made := (s.sessions i).ep.options } := by
    simp [createOpen, hfree]
  have howned : ({ s.sessions i with pc := .truncate s.count } : Session).owned =
      some (shmKey (s.sessions i).ep.sharedName, s.count) := rfl
  refine h.of_step (i := i) (c := { s.sessions i with pc := .truncate s.count }) ?_ ?_ ?_
    (fun o ho => by rw [hold o ho]; exact .refl _) (fun o ho _ => by rw [hold o ho]; exact .refl _)
    (fun o => ?_) (fun o => ?_) (fun n o hown => ?_) ?_
  · simp [createOpen, hfree]
  · simp only [createOpen, hfree, registry, holds_update, howned, Option.isSome_none,
      Bool.false_eq_true, if_false]
    exact .claim i _ hnone hfree
  · simp [createOpen, hfree]
  · by_cases ho : o = s.count
    · rw [ho, hcell]
      rfl
    · have hsame : (s.createOpen i .done).objects o = s.objects o := by
        simp only [createOpen, hfree, Option.isSome_none, Bool.false_eq_true, if_false]
        exact Function.update_of_ne ho ..
      rw [hsame]
      exact h.layouts o
  · by_cases ho : o = s.count
    · rw [ho, hcell]
      exact fun _ => rfl
    · have hsame : (s.createOpen i .done).objects o = s.objects o := by
        simp only [createOpen, hfree, Option.isSome_none, Bool.false_eq_true, if_false]
        exact Function.update_of_ne ho ..
      rw [hsame]
      exact h.cleared o
  · rw [howned, Option.some.injEq, Prod.mk.injEq] at hown
    rw [← hown.1, ← hown.2, hcell, hready.sharedName]
    rfl
  · exact ⟨⟨hready, by rw [hcell], by rw [hcell], by rw [hcell]⟩, hbackend⟩

theorem closed_fits (hidle : c.pc = .idle) (hclosed : c.ep.opened = false)
    (hbackend : c.backend = {}) : Fits s c := by
  simp only [Fits, hidle]
  exact .inl ⟨hclosed, hbackend⟩

theorem finish (h : s.Sound) (hbefore : (s.sessions i).owned = none) (hidle : c.pc = .idle)
    (hclosed : c.ep.opened = false) (hbackend : c.backend = {}) : (s.put i c).Sound :=
  h.put_free hbefore (owned_none (by simp [hidle]) (by simp [hidle]) (by rw [hbackend]))
    (closed_fits hidle hclosed hbackend)

theorem refuse (h : s.Sound) (hidle : (s.sessions i).pc = .idle) (status : Status) :
    (s.put i ((s.sessions i).answer status)).Sound := by
  refine h.put (owned_answer status hidle) ?_
  have hfits := h.fits i
  simp only [Fits, hidle] at hfits
  exact hfits

theorem backend_of_closed (h : s.Sound) (hidle : (s.sessions i).pc = .idle)
    (hclosed : (s.sessions i).ep.opened = false) : (s.sessions i).backend = {} := by
  have hfits := h.fits i
  simp only [Fits, hidle] at hfits
  rcases hfits with ⟨-, hbackend⟩ | ⟨ep, o, -, hep, -⟩ | ⟨ep, o, mapped, -, -, hep, -⟩
  · exact hbackend
  all_goals
    obtain ⟨members, hlocal⟩ := hep.fixed
    rw [hlocal] at hclosed
    cases hclosed

theorem beginServer (h : s.Sound) (hidle : (s.sessions i).pc = .idle) (options : ChannelOptions) :
    (s.put i ((s.sessions i).beginServer options)).Sound := by
  unfold Session.beginServer
  split
  next => exact h.refuse hidle _
  next hopened =>
    split
    next => exact h.refuse hidle _
    next hinvalid =>
      have hvalid : (validateOptions options).ok = true := by simpa using hinvalid
      have hclosed : (s.sessions i).ep.opened = false := by simpa using hopened
      have hbackend := h.backend_of_closed hidle hclosed
      have hnone : (s.sessions i).owned = none :=
        owned_none (by simp [hidle]) (by simp [hidle]) (by rw [hbackend])
      split_ifs with htotal hmapped
      · exact h.finish hnone rfl hclosed hbackend
      · simp [hbackend] at hmapped
      · have hnamed : options.name.isEmpty = false := (validateOptions_ok hvalid).1
        have hready : ServerReady ((s.sessions i).prepare options).ep :=
          ⟨⟨hclosed, rfl, rfl, rfl, hnamed⟩, hvalid, htotal⟩
        exact h.put_free hnone (owned_none nofun nofun (by simp [prepare, hbackend]))
          ⟨hready, hbackend⟩

theorem beginClient (h : s.Sound) (hidle : (s.sessions i).pc = .idle) (options : ChannelOptions) :
    (s.put i ((s.sessions i).beginClient options)).Sound := by
  unfold Session.beginClient
  split_ifs with hopened hempty hmapped
  · exact h.refuse hidle _
  · exact h.refuse hidle _
  all_goals
    have hclosed : (s.sessions i).ep.opened = false := by simpa using hopened
    have hbackend := h.backend_of_closed hidle hclosed
    have hnone : (s.sessions i).owned = none :=
      owned_none (by simp [hidle]) (by simp [hidle]) (by rw [hbackend])
  · simp [hbackend] at hmapped
  · have hnamed : options.name.isEmpty = false := Bool.eq_false_iff.mpr hempty
    have hprepared : Prepared ((s.sessions i).prepare options).ep :=
      ⟨hclosed, rfl, rfl, rfl, hnamed⟩
    exact h.put_free hnone (owned_none nofun nofun (by simp [prepare, hbackend]))
      ⟨hprepared, hbackend⟩

theorem close (h : s.Sound) (hidle : (s.sessions i).pc = .idle) : (s.close i).Sound := by
  have hfits := h.fits i
  simp only [Fits, hidle] at hfits
  unfold ShmSystem.close
  rcases hfits with ⟨-, hbackend⟩ | ⟨ep, o, -, -, hbackend⟩ | ⟨ep, o, mapped, -, -, -, hbackend, -⟩
  · simp only [hbackend, Bool.false_eq_true, false_and, if_false]
    exact h.finish (owned_none (by simp [hidle]) (by simp [hidle]) (by rw [hbackend])) rfl rfl rfl
  · have hname : normalizeName ep.sharedName ≠ "" := normalizeName_ne_empty _
    simp only [hbackend, ownBackend, hname, ne_eq, not_false_eq_true, and_self, if_true]
    exact h.drop (owned_serving hidle hbackend) rfl rfl rfl
  · simp only [hbackend, clientBackend, Bool.false_eq_true, false_and, if_false]
    exact h.finish (owned_none (by simp [hidle]) (by simp [hidle]) (by rw [hbackend]; rfl)) rfl rfl
      rfl

theorem createOpen (h : s.Sound) (hpc : (s.sessions i).pc = .create) (answer : SysAnswer) :
    (s.createOpen i answer).Sound := by
  have hfits := h.fits i
  simp only [Fits, hpc] at hfits
  obtain ⟨hready, hbackend⟩ := hfits
  have hnone : (s.sessions i).owned = none :=
    owned_none (by simp [hpc]) (by simp [hpc]) (by rw [hbackend])
  cases answer with
  | failed strerror => exact h.finish hnone rfl hready.closed hbackend
  | done =>
    cases hname : s.names (shmKey (s.sessions i).ep.sharedName) with
    | none => exact h.make hpc hname
    | some o =>
      simp only [ShmSystem.createOpen, hname, Option.isSome_some, if_true]
      exact h.finish hnone rfl hready.closed hbackend

theorem createTruncate (h : s.Sound) (hpc : (s.sessions i).pc = .truncate o)
    (answer : SysAnswer) : (s.createTruncate i o answer).Sound := by
  have hfits := h.fits i
  simp only [Fits, hpc] at hfits
  obtain ⟨hmakes, hbackend⟩ := hfits
  cases answer with
  | failed strerror => exact h.drop (owned_truncate hpc) rfl hmakes.ready.closed hbackend
  | done =>
    refine h.write (owned_truncate hpc) (owned_truncate hpc).symm ⟨rfl, le_rfl, le_rfl⟩
      (h.layouts o) (h.cleared o) ⟨?_, hbackend⟩
    simp only [setObject, Function.update_self]
    exact ⟨hmakes.ready, hmakes.made, rfl, hmakes.stores⟩

theorem createMap (h : s.Sound) (hpc : (s.sessions i).pc = .mapNew o) (answer : SysAnswer) :
    (s.createMap i o answer).Sound := by
  have hfits := h.fits i
  simp only [Fits, hpc] at hfits
  obtain ⟨hmakes, hbackend⟩ := hfits
  cases answer with
  | failed strerror => exact h.drop (owned_mapNew hpc) rfl hmakes.ready.closed hbackend
  | done => exact h.put (owned_mapNew hpc).symm ⟨hmakes, rfl⟩

theorem clear (h : s.Sound) (hpc : (s.sessions i).pc = .clear o) : (s.clear i o).Sound := by
  have hfits := h.fits i
  simp only [Fits, hpc] at hfits
  obtain ⟨hmakes, hbackend⟩ := hfits
  have howned := owned_clear hpc hbackend
  refine h.write howned ?_ ⟨rfl, le_rfl, le_rfl⟩ ?_ (fun _ => rfl) ?_
  · rw [howned]
    exact owned_publish rfl hbackend
  · rw [hmakes.stores]
    rfl
  · refine ⟨?_, rfl, by decide, hbackend⟩
    simp only [setObject, Function.update_self]
    exact ⟨hmakes.ready.mapped, hmakes.made, hmakes.size, hmakes.stores⟩

theorem publish {done : Nat} (h : s.Sound) (hpc : (s.sessions i).pc = .publish o done) :
    (s.publish i o done).Sound := by
  have hfits := h.fits i
  simp only [Fits, hpc] at hfits
  obtain ⟨hmakes, hmapped, hdone, hbackend⟩ := hfits
  have howned := owned_publish hpc hbackend
  have hlayout : (s.objects o).layout.publish (serverLayout (s.sessions i).ep.options) done =
      publishedLayout (s.objects o).final ((s.objects o).stores + 1) := by
    rw [h.layouts o, hmakes.stores, ← hmakes.made]
    rfl
  have hstores : (s.objects o).stores + 1 = done + 1 := by rw [hmakes.stores]
  have hcleared : (s.objects o).uses = 0 → (s.objects o).shm.publish done = clearedShm := by
    intro hzero
    rw [h.cleared o hzero]
    exact clearedShm_publish done
  unfold ShmSystem.publish
  dsimp only
  split_ifs with hlast
  · refine h.write howned ?_ ⟨rfl, Nat.le_succ _, le_rfl⟩ hlayout hcleared ?_
    · rw [howned]
      exact owned_serving rfl hbackend
    · refine .inr (.inl ⟨(s.sessions i).ep, o, ?_, ?_, hbackend⟩)
      · simp only [setObject, Function.update_self]
        exact ⟨hmakes.ready, hmakes.made, hmakes.size, hstores.trans hlast⟩
      · simp only [Session.answer, afterOpen, ← hmapped]
        exact .refl _ _
  · refine h.write howned ?_ ⟨rfl, Nat.le_succ _, le_rfl⟩ hlayout hcleared ?_
    · rw [howned]
      exact owned_publish rfl hbackend
    · refine ⟨?_, hmapped, by omega, hbackend⟩
      simp only [setObject, Function.update_self]
      exact ⟨hmakes.ready, hmakes.made, hmakes.size, hstores⟩

theorem found (h : s.Sound) {name : String} (hname : s.names name = some o) :
    o < s.count ∧ (s.objects o).key = name := by
  obtain ⟨j, hj⟩ := (h.exclusive.bound name o).mp hname
  exact ⟨h.exclusive.made j name o hj, (h.keyed j name o hj).symm⟩

theorem lookup (h : s.Sound) (hnone : (s.sessions i).owned = none)
    (hclosed : (s.sessions i).ep.opened = false) (hbackend : (s.sessions i).backend = {})
    {next : Session → Nat → Session} (hafter : ∀ o, (next (s.sessions i) o).owned = none)
    (hfits : ∀ o, s.names (shmKey (s.sessions i).ep.sharedName) = some o →
      Fits s (next (s.sessions i) o)) (answer : SysAnswer) : (s.lookup i next answer).Sound := by
  cases answer with
  | failed strerror => exact h.finish hnone rfl hclosed hbackend
  | done =>
    unfold ShmSystem.lookup
    dsimp only
    split
    · exact h.finish hnone rfl hclosed hbackend
    · rename_i o hname
      exact h.put_free hnone (hafter o) (hfits o hname)

theorem mapped {bytes : Nat} (h : s.Sound) (hnone : (s.sessions i).owned = none)
    (hclosed : (s.sessions i).ep.opened = false) (hbackend : (s.sessions i).backend = {})
    {next : Session → Session}
    (hput : (s.put i (next { s.sessions i with
      backend := clientBackend (s.sessions i).ep o bytes })).Sound)
    (answer : SysAnswer) : (s.mapped i o bytes next answer).Sound := by
  cases answer with
  | failed strerror => exact h.finish hnone rfl hclosed hbackend
  | done => exact hput

theorem probeOpen (h : s.Sound) (hpc : (s.sessions i).pc = .probeOpen) (answer : SysAnswer) :
    (s.lookup i (fun c o => { c with pc := .probeMap o, probed := some o }) answer).Sound := by
  have hfits := h.fits i
  simp only [Fits, hpc] at hfits
  obtain ⟨hprepared, hbackend⟩ := hfits
  refine h.lookup (owned_none (by simp [hpc]) (by simp [hpc]) (by rw [hbackend]))
    hprepared.closed hbackend ?_ ?_ answer
  · exact fun o => owned_none nofun nofun (by simp [hbackend])
  · intro o hname
    obtain ⟨hold, hkey⟩ := h.found hname
    exact ⟨⟨hprepared, rfl, hold, hkey⟩, hbackend⟩

theorem probeMap (h : s.Sound) (hpc : (s.sessions i).pc = .probeMap o) (answer : SysAnswer) :
    (s.mapped i o sharedHeaderBytes (fun c => { c with pc := .read o 0 0 }) answer).Sound := by
  have hfits := h.fits i
  simp only [Fits, hpc] at hfits
  obtain ⟨hfound, hbackend⟩ := hfits
  have hnone : (s.sessions i).owned = none :=
    owned_none (by simp [hpc]) (by simp [hpc]) (by rw [hbackend])
  refine h.mapped hnone hfound.prepared.closed hbackend ?_ answer
  refine h.put_free hnone (owned_none nofun nofun rfl) ⟨hfound, ?_, rfl⟩
  constructor <;> omega

theorem remapOpen {total : Nat} (h : s.Sound) (hpc : (s.sessions i).pc = .remapOpen total)
    (answer : SysAnswer) :
    (s.lookup i (fun c o => { c with pc := .remapMap total o }) answer).Sound := by
  have hfits := h.fits i
  simp only [Fits, hpc] at hfits
  obtain ⟨o, hfound, hread, htotal, hbackend⟩ := hfits
  refine h.lookup (owned_none (by simp [hpc]) (by simp [hpc]) (by rw [hbackend]))
    hfound.prepared.closed hbackend ?_ ?_ answer
  · exact fun o => owned_none nofun nofun (by simp [hbackend])
  · intro again hname
    refine ⟨o, hfound, hread, htotal, hbackend, fun hbound => ?_, (h.found hname).1⟩
    rw [hfound.key, hname] at hbound
    exact Option.some.inj hbound

theorem remapMap {total : Nat} (h : s.Sound) (hpc : (s.sessions i).pc = .remapMap total o)
    (answer : SysAnswer) :
    (s.mapped i o total
      (fun c => { c with ep.headerMapped := true, ep.opened := true }.answer .okStatus)
      answer).Sound := by
  have hfits := h.fits i
  simp only [Fits, hpc] at hfits
  obtain ⟨probed, hfound, hread, rfl, hbackend, hkept, hold⟩ := hfits
  have hnone : (s.sessions i).owned = none :=
    owned_none (by simp [hpc]) (by simp [hpc]) (by rw [hbackend])
  refine h.mapped hnone hfound.prepared.closed hbackend ?_ answer
  refine h.put_free hnone (owned_none nofun nofun rfl) (.inr (.inr ?_))
  exact ⟨(s.sessions i).ep, probed, o, hfound, hread, .refl _ _, rfl, hkept, hold⟩

theorem rejected {done : Nat} {left : UInt32} (h : s.Sound)
    (hpc : (s.sessions i).pc = .read o done left) (text : String) :
    (s.put i ((s.sessions i).reject text)).Sound := by
  have hfits := h.fits i
  simp only [Fits, hpc] at hfits
  obtain ⟨hfound, -, hbackend⟩ := hfits
  exact h.finish (owned_none (by simp [hpc]) (by simp [hpc]) (by rw [hbackend]; rfl)) rfl
    hfound.prepared.closed rfl

theorem accepted {done next : Nat} {left left' : UInt32} {ep : Endpoint} (h : s.Sound)
    (hpc : (s.sessions i).pc = .read o done left)
    (hname : ep.sharedName = (s.sessions i).ep.sharedName) (hprepared : Prepared ep)
    (hread : Read (s.objects o) ep next left') :
    (s.put i { s.sessions i with ep := ep, pc := .read o next left' }).Sound := by
  have hfits := h.fits i
  simp only [Fits, hpc] at hfits
  obtain ⟨hfound, -, hbackend⟩ := hfits
  refine h.put_free (owned_none (by simp [hpc]) (by simp [hpc]) (by rw [hbackend]; rfl))
    (owned_none nofun nofun (by rw [hbackend]; rfl)) ⟨?_, hread, ?_⟩
  · exact ⟨hprepared, hfound.probed, hfound.old, hname ▸ hfound.key⟩
  · rw [hbackend]
    simp only [clientBackend, hname]

theorem load {done : Nat} {left : UInt32} (h : s.Sound)
    (hpc : (s.sessions i).pc = .read o done left) : (s.load i o done left).Sound := by
  have hfits := h.fits i
  simp only [Fits, hpc] at hfits
  obtain ⟨hfound, hread, hbackend⟩ := hfits
  have hprepared := hfound.prepared
  have hnone : (s.sessions i).owned = none :=
    owned_none (by simp [hpc]) (by simp [hpc]) (by rw [hbackend]; rfl)
  -- from the third load on the constants are there
  have hconst : 5 ≤ (s.objects o).stores →
      (s.objects o).layout.capacity = (s.objects o).final.capacity ∧
      (s.objects o).layout.messageMaxBytes = (s.objects o).final.messageMaxBytes ∧
      (s.objects o).layout.ringBytes = (s.objects o).final.ringBytes := by
    rw [h.layouts o]
    exact publishedLayout_final
  unfold ShmSystem.load
  dsimp only
  split_ifs with hsize
  · exact h.put_free hnone (owned_none nofun nofun (by rw [hbackend]; rfl))
      ⟨hprepared.closed, by rw [hbackend]; rfl⟩
  obtain ⟨hbound, hstores, hring, hleft, hpower, hcapacity, hmax⟩ := hread
  match done, hbound, hpc with
  | 0, _, hpc =>
    simp only [Session.load]
    split_ifs
    · exact h.rejected hpc _
    · exact h.accepted hpc rfl hprepared (by constructor <;> omega)
  | 1, _, hpc =>
    simp only [Session.load]
    split_ifs
    · exact h.rejected hpc _
    · exact h.accepted hpc rfl hprepared (by constructor <;> omega)
  | 2, _, hpc =>
    simp only [Session.load]
    split_ifs with hzero
    · exact h.rejected hpc _
    · rw [h.layouts o] at hzero
      have hfive := five_le_of_ringBytes hzero
      rw [(publishedLayout_final hfive).2.2] at hzero
      exact h.accepted hpc rfl hprepared
        ⟨by omega, fun _ => hfive, fun _ => hzero, by omega, by omega, by omega, by omega⟩
  | 3, _, hpc =>
    exact h.accepted hpc rfl hprepared ⟨by omega, fun _ => hstores le_rfl, fun _ => hring le_rfl,
      fun _ => (hconst (hstores le_rfl)).2.2, by omega, by omega, by omega⟩
  | 4, _, hpc =>
    simp only [Session.load]
    rw [(hconst (hstores (by omega))).2.2, hleft rfl]
    split_ifs with hpow
    · exact h.rejected hpc _
    · exact h.accepted hpc rfl hprepared ⟨by omega, fun _ => hstores (by omega),
        fun _ => hring (by omega), by omega, fun _ => by simpa using hpow, by omega, by omega⟩
  | 5, _, hpc =>
    refine h.accepted hpc rfl ?_ ⟨by omega, fun _ => hstores (by omega),
      fun _ => hring (by omega), by omega, fun _ => hpower (by omega),
      fun _ => (hconst (hstores (by omega))).1, by omega⟩
    exact ⟨hprepared.closed, hprepared.sharedName, hprepared.outbox, hprepared.pendingDrop,
      hprepared.named⟩
  | 6, _, hpc =>
    refine h.accepted hpc rfl ?_ ⟨by omega, fun _ => hstores (by omega),
      fun _ => hring (by omega), by omega, fun _ => hpower (by omega),
      fun _ => hcapacity (by omega), fun _ => (hconst (hstores (by omega))).2.1⟩
    exact ⟨hprepared.closed, hprepared.sharedName, hprepared.outbox, hprepared.pendingDrop,
      hprepared.named⟩
  | 7, _, hpc =>
    refine h.put_free hnone (owned_none nofun nofun rfl) ⟨o, hfound, ?_, ?_, rfl⟩
    · exact ⟨le_rfl, hstores, hring, by omega, hpower, hcapacity, hmax⟩
    · rw [(hconst (hstores (by omega))).2.2]

theorem advance (h : s.Sound) {answer : SysAnswer} (hstep : s.advance i answer = some s') :
    s'.Sound := by
  unfold ShmSystem.advance at hstep
  split at hstep <;> cases hstep
  next hpc => exact h.createOpen hpc answer
  next hpc => exact h.createTruncate hpc answer
  next hpc => exact h.createMap hpc answer
  next hpc => exact h.clear hpc
  next hpc => exact h.publish hpc
  next hpc => exact h.probeOpen hpc answer
  next hpc => exact h.probeMap hpc answer
  next hpc => exact h.load hpc
  next hpc => exact h.remapOpen hpc answer
  next hpc => exact h.remapMap hpc answer

theorem fits_withLocal {members : LocalMembers} (hfits : Fits s c) (hidle : c.pc = .idle)
    (hopened : c.ep.opened = true) (hused : ∀ o, c.backend.base = some o → (s.objects o).uses ≠ 0) :
    Fits s { c with ep := c.ep.withLocal members } := by
  have hlocal : ∀ {o : Nat} {ep : Endpoint}, c.backend.base = some o →
      Keeps (s.objects o).uses (afterOpen ep) c.ep →
      Keeps (s.objects o).uses (afterOpen ep) (c.ep.withLocal members) := by
    rintro o ep hbase ⟨⟨before, heq⟩, -⟩
    exact ⟨⟨members, by rw [heq]; rfl⟩, fun hzero => absurd hzero (hused o hbase)⟩
  simp only [Fits, hidle] at hfits ⊢
  rcases hfits with ⟨hclosed, -⟩ | ⟨ep, o, hmakes, hep, hbackend⟩ |
    ⟨ep, o, mapped, hfound, hread, hep, hbackend, hrest⟩
  · rw [hopened] at hclosed
    cases hclosed
  · exact .inr (.inl ⟨ep, o, hmakes, hlocal (by rw [hbackend]; rfl) hep, hbackend⟩)
  · exact .inr (.inr ⟨ep, o, mapped, hfound, hread, hlocal (by rw [hbackend]; rfl) hep, hbackend,
      hrest⟩)

theorem exists_base (h : s.Sound) (hidle : (s.sessions i).pc = .idle)
    (hopened : (s.sessions i).ep.opened = true) : ∃ o, (s.sessions i).backend.base = some o := by
  have hfits := h.fits i
  simp only [Fits, hidle] at hfits
  rcases hfits with ⟨hclosed, -⟩ | ⟨ep, o, -, -, hbackend⟩ | ⟨ep, o, mapped, -, -, -, hbackend, -⟩
  · rw [hopened] at hclosed
    cases hclosed
  · exact ⟨o, by rw [hbackend]; rfl⟩
  · exact ⟨mapped, by rw [hbackend]; rfl⟩

theorem use (h : s.Sound) (hidle : (s.sessions i).pc = .idle)
    (hopened : (s.sessions i).ep.opened = true) (shm : Shm) (members : LocalMembers) :
    (s.use i shm members).Sound := by
  obtain ⟨o, hbase⟩ := h.exists_base hidle hopened
  let cell : ShmObject := { s.objects o with shm := shm, uses := (s.objects o).uses + 1 }
  have hsystem : s.use i shm members = (s.setObject o cell).put i
      { s.sessions i with ep := (s.sessions i).ep.withLocal members } := by
    simp only [ShmSystem.use, hbase]
    rfl
  rw [hsystem]
  have howned : ({ s.sessions i with ep := (s.sessions i).ep.withLocal members } : Session).owned =
      (s.sessions i).owned := by
    rw [owned_eq (by simp [hidle]) (by simp [hidle]),
      owned_eq (c := s.sessions i) (by simp [hidle]) (by simp [hidle])]
  have hother : ∀ p, p ≠ o → (s.setObject o cell).objects p = s.objects p :=
    fun p hp => Function.update_of_ne hp ..
  have hself : (s.setObject o cell).objects o = cell := Function.update_self ..
  have hkept : ∀ p, (s.objects p).Kept ((s.setObject o cell).objects p) := by
    intro p
    by_cases hp : p = o
    · rw [hp, hself]
      exact .used _ shm
    · rw [hother p hp]
      exact .refl _
  have hsame : ((s.setObject o cell).put i
      { s.sessions i with ep := (s.sessions i).ep.withLocal members }).registry = s.registry := by
    simp only [registry, ShmSystem.put, setObject, holds_update, howned, Function.update_eq_self]
  have hframe : Frame s (s.setObject o cell) i :=
    ⟨fun p _ => (hkept p).toGrows, fun _ p _ => hkept p, le_rfl, fun _ _ _ hbound => hbound⟩
  refine h.of_step rfl (hsame ▸ .keep) le_rfl (fun p _ => (hkept p).toGrows) (fun p _ _ => hkept p)
    (fun p => ?_) (fun p => ?_) (fun n p hown => ?_) ?_
  · change ((s.setObject o cell).objects p).layout =
      publishedLayout ((s.setObject o cell).objects p).final ((s.setObject o cell).objects p).stores
    rw [ShmObject.final, (hkept p).made, (hkept p).full, ← ShmObject.final, ← h.layouts p]
    by_cases hp : p = o
    · rw [hp, hself]
    · rw [hother p hp]
  · change ((s.setObject o cell).objects p).uses = 0 → ((s.setObject o cell).objects p).shm = _
    by_cases hp : p = o
    · rw [hp, hself]
      exact fun hzero => absurd hzero (Nat.succ_ne_zero _)
    · rw [hother p hp]
      exact h.cleared p
  · rw [howned] at hown
    change n = ((s.setObject o cell).objects p).key
    rw [h.keyed i n p hown, ShmObject.key, ShmObject.key, (hkept p).made]
  · refine fits_withLocal (hframe.fits (h.fits i)) hidle hopened fun p hp => ?_
    obtain rfl := Option.some.inj (hbase.symm.trans hp)
    change ((s.setObject o cell).objects o).uses ≠ 0
    rw [hself]
    exact Nat.succ_ne_zero _

theorem step (h : s.Sound) {label : SessionLabel} (hstep : s.step label = some s') : s'.Sound := by
  cases label with
  | openServer i options =>
    obtain ⟨hidle, hs⟩ := Option.ite_none_right_eq_some.mp hstep
    cases hs
    exact h.beginServer hidle options
  | openClient i options =>
    obtain ⟨hidle, hs⟩ := Option.ite_none_right_eq_some.mp hstep
    cases hs
    exact h.beginClient hidle options
  | close i =>
    obtain ⟨hidle, hs⟩ := Option.ite_none_right_eq_some.mp hstep
    cases hs
    exact h.close hidle
  | advance i answer => exact h.advance hstep
  | use i shm members =>
    obtain ⟨⟨hidle, hopened⟩, hs⟩ := Option.ite_none_right_eq_some.mp hstep
    cases hs
    exact h.use hidle hopened shm members

theorem of_run {labels : List SessionLabel} (hrun : runs ShmSystem.step {} labels = some s) :
    s.Sound :=
  runs_invariant (fun _ _ _ h hstep => h.step hstep) .start hrun

theorem idle_of_opened (h : s.Sound) (hopened : (s.sessions i).ep.opened = true) :
    (s.sessions i).pc = .idle := by
  have hfits := h.fits i
  have hno : (s.sessions i).ep.opened ≠ false := by simp [hopened]
  unfold Fits at hfits
  split at hfits
  · assumption
  · exact absurd hfits.1.closed hno
  · exact absurd hfits.1.ready.closed hno
  · exact absurd hfits.1.ready.closed hno
  · exact absurd hfits.1.ready.closed hno
  · exact absurd hfits.1.ready.closed hno
  · exact absurd hfits.1.closed hno
  · exact absurd hfits.1.prepared.closed hno
  · exact absurd hfits.1.prepared.closed hno
  · exact absurd hfits.choose_spec.1.prepared.closed hno
  · exact absurd hfits.choose_spec.1.prepared.closed hno
  · exact absurd hfits.1 hno

theorem attached (h : s.Sound) (hopened : (s.sessions i).ep.opened = true)
    (hclient : (s.sessions i).backend.isOwner = false) :
    ∃ ep o mapped, Attached s (s.sessions i) ep o mapped := by
  have hfits := h.fits i
  simp only [Fits, h.idle_of_opened hopened] at hfits
  rcases hfits with ⟨hclosed, -⟩ | ⟨ep, o, -, -, hbackend⟩ | hattached
  · simp [hopened] at hclosed
  · simp [hbackend, ownBackend] at hclient
  · exact hattached

theorem serving (h : s.Sound) {n : String} (hopened : (s.sessions i).ep.opened = true)
    (howned : (s.sessions i).owned = some (n, o)) : ∃ ep, Serving s (s.sessions i) ep o := by
  have hidle := h.idle_of_opened hopened
  have hfits := h.fits i
  simp only [Fits, hidle] at hfits
  rcases hfits with ⟨hclosed, -⟩ | ⟨ep, p, hserving⟩ | ⟨ep, p, mapped, -, -, -, hbackend, -⟩
  · simp [hopened] at hclosed
  · have hsame := (owned_serving hidle hserving.2.2).symm.trans howned
    simp only [Option.some.injEq, Prod.mk.injEq] at hsame
    exact ⟨ep, hsame.2 ▸ hserving⟩
  · rw [owned_none (by simp [hidle]) (by simp [hidle]) (by rw [hbackend]; rfl)] at howned
    cases howned

theorem published (h : s.Sound) {n : String} (hserver : (s.sessions i).ep.opened = true)
    (howned : (s.sessions i).owned = some (n, o)) :
    (s.objects o).layout = serverLayout (s.sessions i).ep.options ∧
      (s.objects o).size = totalBytes (s.sessions i).ep.options := by
  obtain ⟨server, hmakes, hserverEp, -⟩ := h.serving hserver howned
  obtain ⟨members, hlocal⟩ := hserverEp.fixed
  rw [h.layouts o, hmakes.stores, hmakes.size, hlocal, publishedLayout_all (by decide),
    ShmObject.final, hmakes.made]
  exact ⟨rfl, rfl⟩

theorem bothOpen (h : s.Sound) {n : String} {j : Nat} (hserver : (s.sessions i).ep.opened = true)
    (howned : (s.sessions i).owned = some (n, o)) {ep : Endpoint}
    (hattached : Attached s (s.sessions j) ep o o)
    (hname : (s.sessions j).ep.options.name = (s.sessions i).ep.options.name)
    (hunused : (s.objects o).uses = 0) :
    BothOpen (s.sessions i).ep.options ⟨(s.objects o).layout, (s.objects o).shm, (s.objects o).size⟩
      (s.sessions i).ep (s.sessions j).ep := by
  obtain ⟨server, hmakes, hserverEp, -⟩ := h.serving hserver howned
  obtain ⟨hfound, hread, hclientEp, -⟩ := hattached
  have hserverEp := hserverEp.fresh hunused
  have hclientEp := hclientEp.fresh hunused
  have hlayout : (s.objects o).layout = (s.objects o).final := by
    rw [h.layouts o, hmakes.stores]
    exact publishedLayout_all (by decide)
  rw [hlayout, h.cleared o hunused, hserverEp, hclientEp, hmakes.size]
  rw [hserverEp, hclientEp] at hname
  refine ⟨⟨server, .okStatus, ?_⟩, ⟨ep, ep.options, .okStatus, .okStatus, hname, ?_⟩⟩
  · rw [ShmObject.final, hmakes.made]
    exact hmakes.ready.openServer_eq
  · exact hread.openClient_eq hfound.prepared _

end Sound

end ShmSystem

/-- Every interleaving of `OpenServer`, `OpenClient`, `Close` and the steps of `TrySend`
and `TryRecv` of any number of channels, with system calls that fail anywhere. A
name is bound exactly to the object of the one channel that is making it or serving
it, so that no `shm_unlink` takes the name of another server; a channel that is not
open holds no descriptor, no mapping and no name, and when all are closed no name is
left. An open client has the constants of the object that it probed, complete, and a
mapping of the size they give. As long as that object's server is open the client
maps that object, whose header has the constants of the server; and until the first
`TrySend` or `TryRecv` through the object the two have opened one channel as
`BothOpen` says, with the indices and counters at zero. -/
theorem sessions_keep_names (labels : List SessionLabel) (s : ShmSystem)
    (hrun : runs ShmSystem.step {} labels = some s) :
    (∀ n o, s.names n = some o ↔ ∃ i, (s.sessions i).owned = some (n, o)) ∧
    (∀ i j n o o', (s.sessions i).owned = some (n, o) → (s.sessions j).owned = some (n, o') →
      i = j) ∧
    (∀ i, (s.sessions i).pc = .idle → (s.sessions i).ep.opened = false →
      (s.sessions i).backend = {}) ∧
    ((∀ i, (s.sessions i).pc = .idle ∧ (s.sessions i).ep.opened = false) →
      ∀ n, s.names n = none) ∧
    (∀ j, (s.sessions j).ep.opened = true → (s.sessions j).backend.isOwner = false →
      ∃ o, (s.sessions j).probed = some o ∧
        (s.sessions j).ep.options.capacity = (serverLayout (s.objects o).made).capacity ∧
        (s.sessions j).ep.options.messageMaxBytes =
          (serverLayout (s.objects o).made).messageMaxBytes ∧
        (s.sessions j).backend.size =
          sharedHeaderBytes + (serverLayout (s.objects o).made).ringBytes.toNat ∧
        ∀ n i, (s.sessions i).owned = some (n, o) →
          (s.sessions j).backend.base = some o ∧
          ((s.sessions i).ep.opened = true →
            (s.objects o).layout = serverLayout (s.sessions i).ep.options ∧
            (s.objects o).size = totalBytes (s.sessions i).ep.options ∧
            ((s.sessions j).ep.options.name = (s.sessions i).ep.options.name →
              (s.objects o).uses = 0 →
              BothOpen (s.sessions i).ep.options
                ⟨(s.objects o).layout, (s.objects o).shm, (s.objects o).size⟩
                (s.sessions i).ep (s.sessions j).ep))) := by
  have h := ShmSystem.Sound.of_run hrun
  refine ⟨h.exclusive.bound, ?_, ?_, ?_, ?_⟩
  · exact fun i j n o o' hi hj => (h.exclusive.unique hi hj).1
  · exact fun i hidle hclosed => h.backend_of_closed hidle hclosed
  · intro hall n
    refine Option.eq_none_iff_forall_ne_some.mpr fun o hbound => ?_
    obtain ⟨i, hi⟩ := (h.exclusive.bound n o).mp hbound
    obtain ⟨hidle, hclosed⟩ := hall i
    have hbackend := h.backend_of_closed hidle hclosed
    change (s.sessions i).owned = _ at hi
    rw [Session.owned_none (by simp [hidle]) (by simp [hidle]) (by rw [hbackend])] at hi
    cases hi
  · intro j hopened hclient
    obtain ⟨ep, o, mapped, hattached⟩ := h.attached hopened hclient
    obtain ⟨hfound, hread, hep, hbackend, hkept, -⟩ := id hattached
    obtain ⟨members, hlocal⟩ := hep.fixed
    refine ⟨o, hfound.probed, ?_, ?_, by rw [hbackend]; rfl, fun n i howned => ?_⟩
    · rw [hlocal]
      exact hread.capacity (by omega)
    · rw [hlocal]
      exact hread.maxBytes le_rfl
    · have hbound := (h.exclusive.bound n o).mpr ⟨i, howned⟩
      rw [h.keyed i n o howned] at hbound
      obtain rfl := hkept hbound
      refine ⟨by rw [hbackend]; rfl, fun hserver => ?_⟩
      obtain ⟨hlayout, hsize⟩ := h.published hserver howned
      exact ⟨hlayout, hsize, h.bothOpen hserver howned hattached⟩

/-- A client that opens while the server still stores the rest of the header. -/
theorem sessions_keep_names_two :
    ∃ s, runs ShmSystem.step {}
        (.openServer 0 { name := "c", capacity := 2, messageMaxBytes := 8 } ::
          List.replicate 9 (.advance 0 .done) ++ .openClient 1 { name := "c" } ::
          List.replicate 12 (.advance 1 .done) ++ List.replicate 6 (.advance 0 .done)) = some s ∧
      (s.sessions 1).backend.base = some 0 ∧
      BothOpen (s.sessions 0).ep.options
        ⟨(s.objects 0).layout, (s.objects 0).shm, (s.objects 0).size⟩
        (s.sessions 0).ep (s.sessions 1).ep := by
  obtain ⟨s, hrun, hs⟩ := Option.map_eq_some_iff.mp
    (show (runs ShmSystem.step {}
        (.openServer 0 { name := "c", capacity := 2, messageMaxBytes := 8 } ::
          List.replicate 9 (.advance 0 .done) ++ .openClient 1 { name := "c" } ::
          List.replicate 12 (.advance 1 .done) ++ List.replicate 6 (.advance 0 .done))).map
        (fun s => decide ((s.sessions 0).ep.opened = true ∧
          (s.sessions 0).owned = some ("/corekit.c", 0) ∧ (s.sessions 1).ep.opened = true ∧
          (s.sessions 1).backend.isOwner = false ∧ (s.sessions 1).probed = some 0 ∧
          (s.sessions 1).ep.options.name = (s.sessions 0).ep.options.name ∧
          (s.objects 0).uses = 0)) = some true by
      decide +kernel)
  obtain ⟨hserver, howned, hopened, hclient, hprobed, hname, hunused⟩ := of_decide_eq_true hs
  obtain ⟨-, -, -, -, hclients⟩ := sessions_keep_names _ s hrun
  obtain ⟨o, ho, -, -, -, hsame⟩ := hclients 1 hopened hclient
  obtain rfl : o = 0 := Option.some.inj (ho.symm.trans hprobed)
  obtain ⟨hbase, hopen⟩ := hsame "/corekit.c" 0 howned
  obtain ⟨-, -, hboth⟩ := hopen hserver
  exact ⟨s, hrun, hbase, hboth hname hunused⟩

/-- A client that sends before `OpenServer` has returned: its index is taken back. -/
example : (runs ShmSystem.step {}
    (.openServer 0 { name := "c", capacity := 2, messageMaxBytes := 8 } ::
      List.replicate 9 (.advance 0 .done) ++ .openClient 1 { name := "c" } ::
      List.replicate 12 (.advance 1 .done) ++ .use 1 { clearedShm with writeIndex := 16 } {} ::
      List.replicate 6 (.advance 0 .done))).map
    (fun s => ((s.objects 0).shm.writeIndex, (s.objects 0).uses)) = some (0, 1) := by
  decide +kernel

end Corekit.Ipc
