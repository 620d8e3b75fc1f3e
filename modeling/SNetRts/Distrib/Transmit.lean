import SNetRts.Distrib.Route

/-!
# Messages about streams

How records and the messages that block or unblock a stream are sent and decoded by the two back ends,
`distrib/mpi/transmit.c` and `distrib/scc/transmit.c`. With MPI the node of a destination does not
travel, and the receiver puts in the node the message comes from. With SCC the whole `snet_dest_t` does,
and only `SNetDistribSendRecord` puts in the sender first.

Messages without a destination are left out.
-/

namespace SNet.Distrib.Transmit

open SNet.Wire SNet.Distrib.Route
open Lib List

variable {β : Type} {ptrSize : Nat}

inductive Backend where
  | mpi
  | scc
deriving DecidableEq

/-- `snet_comm_type_t`, as far as it is used here. -/
inductive CommType where
  | snet_rec
  | snet_block
  | snet_unblock
deriving DecidableEq

def CommType.toInt : CommType → CInt
  | .snet_rec => 0
  | .snet_block => 2
  | .snet_unblock => 3

/-- A message on its way. -/
structure Packet (β : Type) where
  /-- Where it is sent to. -/
  target : CInt
  /-- `MPI_SOURCE`; not used with SCC. -/
  source : CInt
  /-- `MPI_TAG`; not used with SCC. -/
  tag : CommType
  buf : List β

/-- What `SNetDistribRecvMsg` returns. -/
inductive Msg (ptrSize : Nat) where
  | record (rec : Wire.Record ptrSize) (dest : Dest)
  | block (dest : Dest)
  | unblock (dest : Dest)
deriving DecidableEq

variable (mpi : Mpi β)

/-- The bytes of a `snet_dest_t`, which is six ints. -/
def destBytes (d : Dest) : List β :=
  packInt mpi [d.node, d.dest, d.parent, d.parentNode, d.dynamicIndex, d.dynamicLoc]

/-- The `snet_dest_t` that is read. -/
def readDest (buf : List β) : Option (Dest × List β) := do
  let (node, buf) ← mpi.int.dec buf
  let (dest, buf) ← mpi.int.dec buf
  let (parent, buf) ← mpi.int.dec buf
  let (parentNode, buf) ← mpi.int.dec buf
  let (dynamicIndex, buf) ← mpi.int.dec buf
  let (dynamicLoc, buf) ← mpi.int.dec buf
  some (⟨node, dest, parent, parentNode, dynamicIndex, dynamicLoc⟩, buf)

/-- `SNetDistribSendRecord` at node `me`. -/
def sendRecord (me : CInt) (dest : Dest) (r : Wire.Record ptrSize) : Backend → Packet β
  | .mpi => ⟨dest.node, me, .snet_rec, recSerialise mpi r ++ packDest mpi dest⟩
  | .scc => ⟨dest.node, me, .snet_rec,
      mpi.int.enc CommType.snet_rec.toInt ++ recSerialise mpi r ++ destBytes mpi { dest with node := me }⟩

/-- `SNetDistribBlockDest` and `SNetDistribUnblockDest` at node `me`. -/
def sendDest (me : CInt) (type : CommType) (dest : Dest) : Backend → Packet β
  | .mpi => ⟨dest.node, me, type, packDest mpi dest⟩
  | .scc => ⟨dest.node, me, type, mpi.int.enc type.toInt ++ destBytes mpi dest⟩

def blockDest (me : CInt) (dest : Dest) : Backend → Packet β := sendDest mpi me .snet_block dest

def unblockDest (me : CInt) (dest : Dest) : Backend → Packet β := sendDest mpi me .snet_unblock dest

/-- `SNetDistribRecvMsg`. -/
def recvMsg (ptrSize : Nat) (p : Packet β) : Backend → Option (Msg ptrSize)
  | .mpi =>
    match p.tag with
    | .snet_rec => do
      let (r, buf) ← recDeserialise mpi ptrSize p.buf
      let (dest, _) ← unpackDest mpi p.source buf
      some (.record r dest)
    | .snet_block => do
      let (dest, _) ← unpackDest mpi p.source p.buf
      some (.block dest)
    | .snet_unblock => do
      let (dest, _) ← unpackDest mpi p.source p.buf
      some (.unblock dest)
  | .scc => do
    let (type, buf) ← mpi.int.dec p.buf
    if type = CommType.snet_rec.toInt then
      let (r, buf) ← recDeserialise mpi ptrSize buf
      let (dest, _) ← readDest mpi buf
      some (.record r dest)
    else if type = CommType.snet_block.toInt then
      let (dest, _) ← readDest mpi buf
      some (.block dest)
    else if type = CommType.snet_unblock.toInt then
      let (dest, _) ← readDest mpi buf
      some (.unblock dest)
    else none

/-! ## What is decoded -/

theorem readDest_destBytes (d : Dest) (rest : List β) :
    readDest mpi (destBytes mpi d ++ rest) = some (d, rest) := by
  simp only [readDest, destBytes, packInt, flatMap_cons, flatMap_nil, append_nil,
    append_assoc, mpi.int.dec_enc, Option.bind_eq_bind, Option.bind_some]

theorem recvMsg_sendRecord (me : CInt) (dest : Dest) (r : Wire.Record ptrSize) (b : Backend) :
    recvMsg mpi ptrSize (sendRecord mpi me dest r b) b =
      some (.record r.received { dest with node := me }) := by
  cases b with
  | mpi =>
    have h1 := recDeserialise_serialise mpi r (packDest mpi dest)
    have h2 := unpackDest_packDest mpi me dest []
    rw [append_nil] at h2
    simp only [recvMsg, sendRecord, h1, h2, Option.bind_eq_bind, Option.bind_some]
  | scc =>
    have h1 := recDeserialise_serialise mpi r (destBytes mpi { dest with node := me })
    have h2 := readDest_destBytes mpi { dest with node := me } []
    rw [append_nil] at h2
    simp only [recvMsg, sendRecord, append_assoc, mpi.int.dec_enc, h1, h2, Option.bind_eq_bind,
      Option.bind_some, if_true]

/-- The destination of a message that blocks or unblocks a stream, as it is decoded. -/
def decoded (me : CInt) (dest : Dest) : Backend → Dest
  | .mpi => { dest with node := me }
  | .scc => dest

theorem recvMsg_blockDest (me : CInt) (dest : Dest) (b : Backend) :
    recvMsg mpi ptrSize (blockDest mpi me dest b) b = some (.block (decoded me dest b)) := by
  cases b with
  | mpi =>
    have h := unpackDest_packDest mpi me dest []
    rw [append_nil] at h
    simp only [recvMsg, blockDest, sendDest, h, Option.bind_eq_bind, Option.bind_some, decoded]
  | scc =>
    have h := readDest_destBytes mpi dest []
    rw [append_nil] at h
    simp only [recvMsg, blockDest, sendDest, mpi.int.dec_enc, h, Option.bind_eq_bind, Option.bind_some,
      decoded]
    rfl

theorem recvMsg_unblockDest (me : CInt) (dest : Dest) (b : Backend) :
    recvMsg mpi ptrSize (unblockDest mpi me dest b) b = some (.unblock (decoded me dest b)) := by
  cases b with
  | mpi =>
    have h := unpackDest_packDest mpi me dest []
    rw [append_nil] at h
    simp only [recvMsg, unblockDest, sendDest, h, Option.bind_eq_bind, Option.bind_some, decoded]
  | scc =>
    have h := readDest_destBytes mpi dest []
    rw [append_nil] at h
    simp only [recvMsg, unblockDest, sendDest, mpi.int.dec_enc, h, Option.bind_eq_bind, Option.bind_some,
      decoded]
    rfl

/-! ## Both ends of a route -/

/-- Records of the stream that is registered at node `source` as `keyOut` and at node `target` as `keyIn`
find the one that is registered at `target`, and messages about it, with the destination of such a record,
the one that is registered at `source`. -/
def Finds (ptrSize : Nat) (b : Backend) (source target : CInt) (keyOut keyIn : Dest) : Prop :=
  ∀ r : Wire.Record ptrSize, (sendRecord mpi source keyOut r b).target = target ∧
    ∃ dest, recvMsg mpi ptrSize (sendRecord mpi source keyOut r b) b = some (.record r.received dest) ∧
      destCompare dest keyIn ∧
      (blockDest mpi target dest b).target = source ∧ (unblockDest mpi target dest b).target = source ∧
      (∃ d, recvMsg mpi ptrSize (blockDest mpi target dest b) b = some (.block d) ∧
        destCompare d keyOut) ∧
      ∃ d, recvMsg mpi ptrSize (unblockDest mpi target dest b) b = some (.unblock d) ∧ destCompare d keyOut

theorem destCompare_iff (d₁ d₂ : Dest) : destCompare d₁ d₂ = true ↔
    d₁.node = d₂.node ∧ d₁.dest = d₂.dest ∧ d₁.parent = d₂.parent ∧ d₁.dynamicIndex = d₂.dynamicIndex := by
  simp [destCompare, and_assoc]

theorem finds_iff (b : Backend) {source target : CInt} (hne : source ≠ target) {keyOut keyIn : Dest}
    (hOut : keyOut.node = target) (hIn : keyIn = { keyOut with node := source }) :
    Finds mpi ptrSize b source target keyOut keyIn ↔ b = .mpi := by
  subst hIn
  have hdest : ∀ dest : Dest, dest.node = source →
      (sendDest mpi target .snet_block dest b).target = source ∧
        (sendDest mpi target .snet_unblock dest b).target = source := by
    intro dest hdest
    cases b <;> exact ⟨hdest, hdest⟩
  constructor
  · intro h
    obtain ⟨-, dest, hdest, -, -, -, ⟨d, hd, hcompare⟩, -⟩ := h .triggerInitialiser
    rw [recvMsg_sendRecord] at hdest
    cases hdest
    rw [recvMsg_blockDest] at hd
    cases hd
    cases b with
    | mpi => rfl
    | scc =>
      rw [destCompare_iff] at hcompare
      exact absurd (hcompare.1.trans hOut) hne
  · rintro rfl r
    obtain ⟨hb, hu⟩ := hdest { keyOut with node := source } rfl
    refine ⟨hOut, _, recvMsg_sendRecord mpi source keyOut r .mpi, (destCompare_iff _ _).2 ⟨rfl, rfl, rfl, rfl⟩,
      hb, hu, ⟨_, recvMsg_blockDest mpi target _ .mpi, ?_⟩, _, recvMsg_unblockDest mpi target _ .mpi, ?_⟩
    · exact (destCompare_iff _ _).2 ⟨hOut.symm, rfl, rfl, rfl⟩
    · exact (destCompare_iff _ _).2 ⟨hOut.symm, rfl, rfl, rfl⟩

/-- For every route, what both nodes register finds each other with MPI, and with no other back end. -/
theorem flow_control_iff (ptrSize : Nat) (b : Backend) (A B : CInt) (hAB : A ≠ B) (wA wB : Walk)
    (hnode : wA.dest.node = A) (hdest : wB.dest = wA.dest) (hcounter : wB.counter = wA.counter) :
    ∃ keyOut keyIn stream, (routeUpdate A B wA).log = wA.log ++ [.newOut keyOut wA.stream] ∧
      (routeUpdate B B wB).log = wB.log ++ [.newIn keyIn stream] ∧
      (Finds mpi ptrSize b A B keyOut keyIn ↔ b = .mpi) := by
  have hA : wA.dest.node ≠ B := by
    rw [hnode]
    exact hAB
  have hB : wB.dest.node ≠ B := by
    rw [hdest]
    exact hA
  rw [routeUpdate_from hA hnode, routeUpdate_to hB rfl]
  refine ⟨_, _, _, rfl, rfl, finds_iff mpi b hAB rfl ?_⟩
  rw [hdest, hcounter, ← hnode]

/-- A node that has its stream at hand, with nothing registered. -/
def bareWalk : Walk := ⟨some .input, ⟨0, 0, 0, 0, 0, 0⟩, 0, 0, []⟩

theorem flow_control_iff_bare :
    ∃ keyOut keyIn stream, (routeUpdate 0 1 bareWalk).log = bareWalk.log ++ [.newOut keyOut bareWalk.stream] ∧
      (routeUpdate 1 1 bareWalk).log = bareWalk.log ++ [.newIn keyIn stream] ∧
      (Finds plainMpi 8 .mpi 0 1 keyOut keyIn ↔ Backend.mpi = .mpi) :=
  flow_control_iff plainMpi 8 .mpi 0 1 (by decide) bareWalk bareWalk rfl rfl rfl

/-- With SCC, a message that blocks the route from node 0 to node 1 is about another destination. -/
theorem scc_block_lost :
    (routeUpdate 0 1 bareWalk).log = [.newOut ⟨1, 0, 0, 0, 0, 0⟩ (some .input)] ∧
    recvMsg plainMpi 8 (sendRecord plainMpi 0 ⟨1, 0, 0, 0, 0, 0⟩ (.triggerInitialiser : Wire.Record 8) .scc) .scc =
      some (.record .triggerInitialiser ⟨0, 0, 0, 0, 0, 0⟩) ∧
    recvMsg plainMpi 8 (blockDest plainMpi 1 ⟨0, 0, 0, 0, 0, 0⟩ .scc) .scc = some (.block ⟨0, 0, 0, 0, 0, 0⟩) ∧
    destCompare ⟨0, 0, 0, 0, 0, 0⟩ ⟨1, 0, 0, 0, 0, 0⟩ = false := by
  refine ⟨rfl, ?_, ?_, rfl⟩
  · exact recvMsg_sendRecord plainMpi 0 ⟨1, 0, 0, 0, 0, 0⟩ .triggerInitialiser .scc
  · exact recvMsg_blockDest plainMpi 1 ⟨0, 0, 0, 0, 0, 0⟩ .scc

end SNet.Distrib.Transmit
