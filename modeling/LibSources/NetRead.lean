import LibSources.NetWrite

/-!
# The Round Trip of Uncompressed Packets

The receiving side reads the frames in chunks of any size and puts those of a payload together at
`where_b`.

## Main results

* `receiveAll_sendAll`: what one side sends, the other side receives.
-/

namespace LibSources

open List Option

variable {mem : ℕ → UInt8} {n : ℕ} {rest data payload : List UInt8} {net : Net} {codec : Codec}

variable {i : ℕ}

theorem uint3korr_of_window (hn : n < 2 ^ 24) (h : window mem i 3 = int3store n) :
    uint3korr mem i = n := by
  simp only [window_succ, window_zero, int3store, cons.injEq] at h
  obtain ⟨h0, h1, h2, -⟩ := h
  rw [uint3korr, h0, h1, h2]
  simp only [Nat.toUInt8, UInt8.toNat_ofNat']
  omega

theorem frameHeader_of_window {nr : UInt32} (hn : n < 2 ^ 24)
    (h : window mem i 4 = frameHeader n nr) : uint3korr mem i = n ∧ mem (i + 3) = nr.toUInt8 := by
  obtain ⟨hlen, hnr⟩ := window_eq_append h
  refine ⟨uint3korr_of_window hn hlen, ?_⟩
  change window mem (i + 3) 1 = _ at hnr
  rw [window_succ] at hnr
  exact (cons.inj hnr).1

theorem length_frameHeader (n : ℕ) (nr : UInt32) : (frameHeader n nr).length = 4 := rfl

/-- The bytes of the stream are stored, however they are cut into reads. -/
theorem readLoop_eq (net : Net) (pos : ℕ) (hinput : net.vio.input = data ++ rest) :
    ∃ vio, vio.input = rest ∧ readLoop net pos data.length =
        some { net with vio := vio, buff := store net.buff pos data } := by
  induction hn : data.length using Nat.strong_induction_on generalizing data net pos with
  | _ n ih =>
    subst hn
    rw [readLoop]
    by_cases hzero : data.length = 0
    · obtain rfl : data = [] := length_eq_zero_iff.mp hzero
      refine ⟨net.vio, by simpa using hinput, ?_⟩
      rw [if_pos hzero, store_nil]
    rw [if_neg hzero]
    set size := min data.length (net.vio.chunk net.vio.reads + 1) with hsize
    have hsize1 : size ≤ data.length := by omega
    have htake : net.vio.input.take size = data.take size := by
      rw [hinput, take_append_of_le_length hsize1]
    have hdrop : net.vio.input.drop size = data.drop size ++ rest := by
      rw [hinput, drop_append_of_le_length hsize1]
    have hlen : (data.take size).length = size := by
      rw [length_take]
      omega
    have hlen' : (data.drop size).length = data.length - size := length_drop
    obtain ⟨vio, hrest, hread⟩ := ih (data.drop size).length (by omega)
      { net with
        vio := { net.vio with input := net.vio.input.drop size, reads := net.vio.reads + 1 }
        buff := store net.buff pos (data.take size) } (pos + size) hdrop rfl
    refine ⟨vio, hrest, ?_⟩
    simp only [vioRead, ← hsize, htake, hlen]
    rw [if_neg (by omega), ← hlen', hread]
    have hstore := store_append net.buff pos (data.take size) (data.drop size)
    rw [hlen, take_append_drop] at hstore
    rw [hstore]

/-! ### Reading a frame -/

/-- The receiving side `net` has come to `net'` by reading `data` to its `where_b`, and
`rest` is left of the stream. -/
structure ReadTo (net net' : Net) (data rest : List UInt8) : Prop where
  compress_eq : net'.compress = net.compress
  maxPacketSize_eq : net'.maxPacketSize = net.maxPacketSize
  input_eq : net'.vio.input = rest
  data_eq : window net'.buff net.whereB data.length = data
  below_eq : ∀ j < net.whereB, net'.buff j = net.buff j

theorem ReadTo.append {net1 net' : Net} {data' rest' : List UInt8} (T : ReadTo net net1 data rest)
    (hn : data.length = n) (hwhere : net1.whereB = net.whereB)
    (T' : ReadTo { net1 with whereB := net1.whereB + n } net' data' rest') :
    ReadTo net net' (data ++ data') rest' where
  compress_eq := T'.compress_eq.trans T.compress_eq
  maxPacketSize_eq := T'.maxPacketSize_eq.trans T.maxPacketSize_eq
  input_eq := T'.input_eq
  data_eq := by
    have hbelow := T'.below_eq
    have hdata := T'.data_eq
    rw [hwhere, ← hn] at hbelow hdata
    rw [length_append, window_add, hdata]
    refine congrArg (· ++ data') (Eq.trans (window_congr fun j _ hj => ?_) T.data_eq)
    exact hbelow j hj
  below_eq := by
    intro j hj
    have hbelow := T'.below_eq j (by dsimp only; omega)
    exact hbelow.trans (T.below_eq j hj)

theorem ensureSize_eq (net : Net) {helping : ℕ} (h : helping < net.maxPacketSize) :
    ∃ maxPacket writePos,
      ensureSize net helping = some { net with maxPacket := maxPacket, writePos := writePos } := by
  rw [ensureSize]
  split
  · rw [netRealloc, if_neg (by omega)]
    exact ⟨_, 0, rfl⟩
  · exact ⟨net.maxPacket, net.writePos, rfl⟩

theorem readHeader_plain (hplain : net.compress = false) (hn : n < 2 ^ 24)
    (hinput : net.vio.input = frameHeader n net.pktNr ++ rest) :
    ∃ vio, vio.input = rest ∧ readHeader net = some (n, 0, { net with
      vio := vio
      buff := store net.buff net.whereB (frameHeader n net.pktNr)
      pktNr := net.pktNr + 1
      compressPktNr := net.pktNr + 1 }) := by
  obtain ⟨vio, hvio, hread⟩ := readLoop_eq net net.whereB hinput
  obtain ⟨hlen, hnr⟩ := frameHeader_of_window hn
    (window_store_self net.buff net.whereB (frameHeader n net.pktNr))
  refine ⟨vio, hvio, ?_⟩
  rw [length_frameHeader] at hread
  simp only [readHeader, hplain, netHeaderSize, Bool.false_eq_true, if_false, hread,
    bind_eq_bind, bind_some, hlen, hnr, ne_eq, not_true_eq_false]

theorem readBody_eq (net : Net) (complen : ℕ) (hinput : net.vio.input = data ++ rest)
    (hsize : max data.length complen + net.whereB < net.maxPacketSize) :
    ∃ vio maxPacket writePos, vio.input = rest ∧
      readBody net data.length complen = some { net with
        vio := vio
        buff := store net.buff net.whereB data
        maxPacket := maxPacket
        writePos := writePos } := by
  obtain ⟨maxPacket, writePos, hroom⟩ := ensureSize_eq net hsize
  obtain ⟨vio, hvio, hread⟩ := readLoop_eq
    { net with maxPacket := maxPacket, writePos := writePos } net.whereB hinput
  refine ⟨vio, maxPacket, writePos, hvio, ?_⟩
  rw [readBody, hroom]
  exact hread

theorem myRealRead_of_header {vio : Vio} {header : List UInt8} {complen : ℕ}
    (hvio : vio.input = data ++ rest)
    (hhead : readHeader net = some (data.length, complen, { net with
      vio := vio
      buff := store net.buff net.whereB header
      pktNr := net.pktNr + 1
      compressPktNr := net.pktNr + 1 }))
    (hsize : max data.length complen + net.whereB < net.maxPacketSize) :
    ∃ net', myRealRead net = some (data.length, complen, net') ∧
      net'.pktNr = net.pktNr + 1 ∧ net'.whereB = net.whereB ∧ ReadTo net net' data rest := by
  rw [myRealRead, hhead, bind_eq_bind, bind_some]
  dsimp only
  split
  · rename_i hzero
    obtain rfl : data = [] := length_eq_zero_iff.mp hzero
    exact ⟨_, rfl, rfl, rfl, rfl, rfl, hvio, rfl, fun j hj => store_of_lt _ _ hj⟩
  obtain ⟨vio', maxPacket, writePos, hvio', hbody⟩ := readBody_eq
    { net with
      vio := vio
      buff := store net.buff net.whereB header
      pktNr := net.pktNr + 1
      compressPktNr := net.pktNr + 1 } complen hvio hsize
  rw [hbody]
  refine ⟨_, rfl, rfl, rfl, rfl, rfl, hvio', window_store_self _ _ _, fun j hj => ?_⟩
  exact (store_of_lt _ _ hj).trans (store_of_lt _ _ hj)

theorem myRealRead_frame (net : Net) (hplain : net.compress = false) (hn : n ≤ maxPacketLength)
    (hdata : data.length = n) (hinput : net.vio.input = frameHeader n net.pktNr ++ (data ++ rest))
    (hsize : net.whereB + n < net.maxPacketSize) :
    ∃ net', myRealRead net = some (n, 0, net') ∧ net'.pktNr = net.pktNr + 1 ∧
      net'.whereB = net.whereB ∧ ReadTo net net' data rest := by
  obtain ⟨vio, hvio, hhead⟩ := readHeader_plain hplain
    (lt_of_le_of_lt hn (by decide : maxPacketLength < 2 ^ 24)) hinput
  subst hdata
  exact myRealRead_of_header hvio hhead (by omega)

/-! ### Putting the frames together -/

theorem length_le_length_frames (nr : UInt32) (payload : List UInt8) :
    payload.length < (frames nr payload).length := by
  induction hn : payload.length using Nat.strong_induction_on generalizing payload nr with
  | _ n ih =>
    have hpos := maxPacketLength_pos
    rw [frames]
    split
    · have := ih (payload.drop maxPacketLength).length (by rw [length_drop]; omega) (nr + 1) _ rfl
      simp only [length_append, length_frameHeader, length_take, length_drop] at this ⊢
      omega
    · simp only [length_append, length_frameHeader]
      omega

theorem readFrames_eq (hplain : net.compress = false) (fuel len totalLength : ℕ)
    (hinput : net.vio.input = frames net.pktNr payload ++ rest)
    (hsize : net.whereB + len + payload.length < net.maxPacketSize)
    (hfuel : payload.length < fuel) :
    ∃ net', readFrames fuel net len totalLength =
        some (payload.length + (totalLength + len), net') ∧
      net'.pktNr = nextNr net.pktNr payload ∧
      ReadTo { net with whereB := net.whereB + len } net' payload rest := by
  induction fuel generalizing net len totalLength payload with
  | zero => omega
  | succ fuel ih =>
    have hpos := maxPacketLength_pos
    rw [readFrames, nextNr]
    rw [frames] at hinput
    by_cases hlong : maxPacketLength ≤ payload.length
    · rw [if_pos hlong] at hinput ⊢
      have hlen : (payload.take maxPacketLength).length = maxPacketLength := by
        rw [length_take]
        omega
      have hlen' : (payload.drop maxPacketLength).length = payload.length - maxPacketLength :=
        length_drop
      simp only [append_assoc] at hinput
      obtain ⟨net1, hread, hnr, hwhere, T1⟩ := myRealRead_frame
        { net with whereB := net.whereB + len } hplain le_rfl hlen hinput
        (by dsimp only; omega)
      have hcompress := T1.compress_eq.trans hplain
      have hinput1 := T1.input_eq
      rw [← hnr] at hinput1
      have hmax := T1.maxPacketSize_eq
      obtain ⟨net', hrest, hnext, T'⟩ := ih hcompress maxPacketLength
        (totalLength + len) hinput1 (by rw [hwhere, hmax, hlen']; dsimp only; omega) (by omega)
      refine ⟨net', ?_, ?_, ?_⟩
      · rw [hread, bind_eq_bind, bind_some]
        refine (if_pos rfl).trans ?_
        have hsum : payload.length - maxPacketLength + (totalLength + len + maxPacketLength) =
            payload.length + (totalLength + len) := by omega
        rw [hrest, hlen', hsum]
      · rw [hnext, hnr]
      · have T := T1.append hlen hwhere T'
        rw [take_append_drop] at T
        exact T
    · rw [if_neg hlong] at hinput ⊢
      obtain ⟨net', hread, hnr, hwhere, T'⟩ := myRealRead_frame
        { net with whereB := net.whereB + len } hplain (by omega) rfl hinput
        (by dsimp only; omega)
      refine ⟨net', ?_, hnr, T'⟩
      rw [hread, bind_eq_bind, bind_some]
      exact if_neg (by omega)

section

variable (hplain : net.compress = false) (hinput : net.vio.input = frames net.pktNr payload ++ rest)
  (hsize : net.whereB + payload.length < net.maxPacketSize)
include hplain hinput hsize

theorem readPacket_eq :
    ∃ net', readPacket net = some (payload.length, net') ∧
      net'.pktNr = nextNr net.pktNr payload ∧ ReadTo net net' payload rest := by
  rw [readPacket, nextNr]
  rw [frames] at hinput
  by_cases hlong : maxPacketLength ≤ payload.length
  · rw [if_pos hlong] at hinput ⊢
    have hlen : (payload.take maxPacketLength).length = maxPacketLength := by
      rw [length_take]
      omega
    have hlen' : (payload.drop maxPacketLength).length = payload.length - maxPacketLength :=
      length_drop
    simp only [append_assoc] at hinput
    obtain ⟨net1, hread, hnr, hwhere, T1⟩ := myRealRead_frame net hplain le_rfl hlen hinput
      (by omega)
    have hinput1 := T1.input_eq
    rw [← hnr] at hinput1
    have hmax := T1.maxPacketSize_eq
    have hfuel := length_le_length_frames net1.pktNr (payload.drop maxPacketLength)
    obtain ⟨net2, hrest, hnext, T2⟩ := readFrames_eq (T1.compress_eq.trans hplain)
      (net1.vio.input.length + 1) maxPacketLength 0 hinput1 (by omega)
      (by rw [hinput1, length_append]; omega)
    refine ⟨net2, ?_, ?_, ?_⟩
    · have hsum : payload.length - maxPacketLength + (0 + maxPacketLength) = payload.length := by
        omega
      rw [hread, bind_eq_bind, bind_some]
      refine (if_pos rfl).trans ?_
      rw [hrest, hlen', hsum]
    · rw [hnext, hnr]
    · have T := T1.append hlen hwhere T2
      rw [take_append_drop] at T
      exact T
  · rw [if_neg hlong] at hinput ⊢
    obtain ⟨net1, hread, hnr, hwhere, T1⟩ := myRealRead_frame net hplain (by omega) rfl hinput
      (by omega)
    refine ⟨net1, ?_, hnr, T1⟩
    rw [hread, bind_eq_bind, bind_some]
    exact if_neg (by omega)

theorem myNetReadPlain_eq :
    ∃ net', myNetReadPlain net = some (payload.length, net') ∧
      window net'.buff net'.readPos payload.length = payload ∧ net'.vio.input = rest ∧
      net'.pktNr = nextNr net.pktNr payload ∧ net'.compress = false ∧
      net'.whereB = net.whereB ∧ net'.maxPacketSize = net.maxPacketSize := by
  obtain ⟨net1, hread, hnr, T⟩ := readPacket_eq hplain hinput hsize
  refine ⟨{ net1 with
      whereB := net.whereB
      readPos := net.whereB
      buff := store net1.buff (net.whereB + payload.length) [0] },
    by rw [myNetReadPlain, hread]; rfl, ?_, T.input_eq, hnr, T.compress_eq.trans hplain, rfl,
    T.maxPacketSize_eq⟩
  exact (window_store_of_le _ _ le_rfl).trans T.data_eq

end

/-! ### The round trip -/

inductive NetOp where
  /-- Call `my_net_write`. -/
  | write (payload : List UInt8)
  /-- Call `net_flush`. -/
  | flush

def payloads : List NetOp → List (List UInt8)
  | [] => []
  | .write payload :: ops => payload :: payloads ops
  | .flush :: ops => payloads ops

/-- The calls of the sending side, with its packet number after each payload. -/
def sendAll (codec : Codec) (net : Net) : List NetOp → Option (Net × List UInt32)
  | [] => some (net, [])
  | .write payload :: ops => do
      let net ← myNetWrite codec net payload
      let (net', nrs) ← sendAll codec net ops
      pure (net', net.pktNr :: nrs)
  | .flush :: ops => do
      let net ← netFlush codec net
      sendAll codec net ops

/-- What a call of `my_net_read` delivers: the length it returns, the bytes at `read_pos`
and the packet number after it. -/
structure Received where
  length : ℕ
  bytes : List UInt8
  pktNr : UInt32

def receiveAll (codec : Codec) (fuel : ℕ) : ℕ → Net → Option (List Received × Net)
  | 0, net => some ([], net)
  | n + 1, net => do
      let (len, net) ← myNetRead codec fuel net
      let (received, net') ← receiveAll codec fuel n net
      pure (⟨len, window net.buff net.readPos len, net.pktNr⟩ :: received, net')

def framesAll : UInt32 → List (List UInt8) → List UInt8
  | _, [] => []
  | nr, payload :: rest => frames nr payload ++ framesAll (nextNr nr payload) rest

def nrsAfter : UInt32 → List (List UInt8) → List UInt32
  | _, [] => []
  | nr, payload :: rest => nextNr nr payload :: nrsAfter (nextNr nr payload) rest

theorem Sender.sendAll {start : Net} {blocks : List (List UInt8)} {stream : List UInt8}
    (S : Sender codec start net blocks stream) (hplain : start.compress = false)
    (ops : List NetOp) :
    ∃ net' blocks', sendAll codec net ops = some (net', nrsAfter net.pktNr (payloads ops)) ∧
      Sender codec start net' blocks' (stream ++ framesAll net.pktNr (payloads ops)) := by
  induction ops generalizing net blocks stream with
  | nil => exact ⟨net, blocks, rfl, by rw [payloads, framesAll, append_nil]; exact S⟩
  | cons op ops ih =>
    cases op with
    | write payload =>
      obtain ⟨net1, blocks1, hwrite, hnr, S1⟩ := S.myNetWrite payload
      obtain ⟨net', blocks', hrest, S'⟩ := ih S1
      rw [hnr, append_assoc] at S'
      refine ⟨net', blocks', ?_, S'⟩
      simp only [LibSources.sendAll, hwrite, hrest, bind_eq_bind, bind_some, hnr]
      rfl
    | flush =>
      obtain ⟨net1, blocks1, hflush, -, hnr, S1⟩ := S.netFlush
      obtain ⟨net', blocks', hrest, S'⟩ := ih S1
      rw [hnr hplain] at hrest S'
      refine ⟨net', blocks', ?_, S'⟩
      simp only [LibSources.sendAll, hflush, hrest, bind_eq_bind, bind_some]
      rfl

theorem sendAll_flush {net1 net2 : Net} {ops : List NetOp} {nrs : List UInt32}
    (hsend : sendAll codec net ops = some (net1, nrs)) (hflush : netFlush codec net1 = some net2) :
    sendAll codec net (ops ++ [NetOp.flush]) = some (net2, nrs) := by
  induction ops generalizing net nrs with
  | nil =>
    obtain ⟨rfl, rfl⟩ := Prod.mk.inj (some.inj hsend)
    simp only [nil_append, sendAll, hflush, bind_eq_bind, bind_some]
  | cons op ops ih =>
    cases op with
    | write payload =>
      simp only [sendAll, cons_append, bind_eq_bind, bind_eq_some_iff] at hsend ⊢
      obtain ⟨net', hwrite, ⟨net'', nrs'⟩, hrest, heq⟩ := hsend
      obtain ⟨rfl, rfl⟩ := Prod.mk.inj (some.inj heq)
      exact ⟨net', hwrite, (net2, nrs'), ih hrest, rfl⟩
    | flush =>
      simp only [sendAll, cons_append, bind_eq_bind, bind_eq_some_iff] at hsend ⊢
      obtain ⟨net', hwrite, hrest⟩ := hsend
      exact ⟨net', hwrite, ih hrest⟩

variable (codec : Codec) (fuel : ℕ)

theorem receiveAll_framesAll (net : Net) (hplain : net.compress = false) (hwhere : net.whereB = 0)
    {sent : List (List UInt8)} (hinput : net.vio.input = framesAll net.pktNr sent)
    (hsize : ∀ payload ∈ sent, payload.length < net.maxPacketSize) :
    ∃ net', receiveAll codec fuel sent.length net =
        some (List.zipWith (fun payload nr => ⟨payload.length, payload, nr⟩) sent
          (nrsAfter net.pktNr sent), net') ∧ net'.vio.input = [] := by
  induction sent generalizing net with
  | nil => exact ⟨net, rfl, hinput⟩
  | cons payload sent ih =>
    obtain ⟨net1, hread, hbytes, hinput1, hnr, hplain1, hwhere1, hmax1⟩ :=
      myNetReadPlain_eq hplain hinput (by rw [hwhere, zero_add]; exact hsize payload mem_cons_self)
    rw [← hnr] at hinput1
    obtain ⟨net', hrest, hend⟩ := ih net1 hplain1 (hwhere1.trans hwhere) hinput1
      (fun p hp => by rw [hmax1]; exact hsize p (mem_cons_of_mem _ hp))
    refine ⟨net', ?_, hend⟩
    have hread' : myNetRead codec fuel net = some (payload.length, net1) := by
      rw [myNetRead, hplain, if_neg Bool.false_ne_true, hread]
    simp only [length_cons, receiveAll, hread', hrest, hbytes, hnr, nrsAfter,
      bind_eq_bind, bind_some, zipWith_cons_cons]
    rfl

/-- The round trip of uncompressed packets: whatever payloads are written, wherever the
write buffer is flushed on the way and however the stream is cut into reads, the receiving
side reads exactly these payloads with their lengths, in order, has the packet number of
the sending side after each of them, and has read all bytes in the end. -/
theorem receiveAll_sendAll (sender receiver : Net)
    (ops : List NetOp) (hsplain : sender.compress = false) (hrplain : receiver.compress = false)
    (herror : sender.error ≠ 2) (hsent : sender.vio.sent = []) (hwrite : sender.writePos = 0)
    (hwhere : receiver.whereB = 0) (hnr : receiver.pktNr = sender.pktNr)
    (hsize : ∀ payload ∈ payloads ops, payload.length < receiver.maxPacketSize) :
    ∃ sender' nrs receiver', sendAll codec sender (ops ++ [NetOp.flush]) = some (sender', nrs) ∧
      receiveAll codec fuel (payloads ops).length
          { receiver with vio := { receiver.vio with input := sender'.vio.sent } } =
        some (List.zipWith (fun payload nr => ⟨payload.length, payload, nr⟩) (payloads ops) nrs,
          receiver') ∧
      receiver'.vio.input = [] := by
  obtain ⟨net₁, blocks₁, hsend, S₁⟩ := (Sender.init codec herror hsent hwrite).sendAll hsplain ops
  obtain ⟨net₂, blocks₂, hflush, hpos, -, S₂⟩ := S₁.netFlush
  have hstream : net₂.vio.sent = framesAll receiver.pktNr (payloads ops) := by
    have heq := S₂.stream_eq
    rw [hpos, window_zero, append_nil, nil_append] at heq
    rw [S₂.sent_eq, hsplain, blocksBytes_plain, heq, hnr]
  obtain ⟨receiver', hreceive, hend⟩ := receiveAll_framesAll codec fuel
    { receiver with vio := { receiver.vio with input := net₂.vio.sent } } hrplain hwhere
    hstream hsize
  rw [← hnr] at hsend
  exact ⟨net₂, _, receiver', sendAll_flush hsend hflush, hreceive, hend⟩

def idleVio (chunk : ℕ → ℕ) : Vio := ⟨[], [], chunk, 0⟩

/-- `receiveAll_sendAll` for three payloads between new connections, with a write buffer of
eight bytes and reads of one byte. -/
theorem receiveAll_sendAll_init :
    ∃ sender' nrs receiver',
      sendAll ⟨id, fun data _ => some data⟩ (myNetInit (idleVio fun _ => 0) (fun _ => 0) 8 100)
        ([.write [1, 2, 3, 4, 5, 6, 7, 8, 9], .flush, .write [], .write [10]] ++ [NetOp.flush]) =
          some (sender', nrs) ∧
      receiveAll ⟨id, fun data _ => some data⟩ 0 3
          { myNetInit (idleVio fun _ => 0) (fun _ => 0) 8 100 with
            vio := { idleVio (fun _ => 0) with input := sender'.vio.sent } } =
        some (List.zipWith (fun payload nr => ⟨payload.length, payload, nr⟩)
          [[1, 2, 3, 4, 5, 6, 7, 8, 9], [], [10]] nrs, receiver') ∧
      receiver'.vio.input = [] :=
  receiveAll_sendAll _ 0 _ (myNetInit (idleVio fun _ => 0) (fun _ => 0) 8 100)
    [.write [1, 2, 3, 4, 5, 6, 7, 8, 9], .flush, .write [], .write [10]] rfl rfl (by decide) rfl
    rfl rfl rfl (by decide)

end LibSources
