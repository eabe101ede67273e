import Janus.SparseInt
import Janus.Transition

/-! The replies on a connection of `Client` (`rrr/rpc/client.cpp`): `handle_read`, and the pair
`handle_read_one` and `handle_read_two`, take packets off `in_` and complete the futures that wait
for them. A packet is written as `begin_reply` and `end_reply` do; `Marshal` objects are byte
queues here. -/

namespace Janus.ClientReplies

open SparseInt Function List Nat Transition

abbrev Xid := BitVec 64

/-- A future. Its callback may lock `pending_fu_l_`, as a request on the same client does. -/
structure Future where
  xid : Xid
  callbackLocks : Bool := false
  errorCode : BitVec 32 := 0
  reply : List Byte := []
  ready : Bool := false
  timedOut : Bool := false
deriving DecidableEq

structure Futures where
  pending : Xid → Option Future
  notified : List Future

structure Client where
  connected : Bool
  /-- `client_`: the connection belongs to a client. -/
  isClient : Bool
  in_ : List Byte
  futures : Futures

def putI32 (v : BitVec 32) : List Byte := (List.range 4).map (pv v.toNat)

def getI32 (q : List Byte) : Option (BitVec 32 × List Byte) :=
  if q.length < 4 then none
  else some (BitVec.ofNat 32 (ofBytes (fun i => q.getD i 0) 4),q.drop 4)

def Future.notifyReady (fu : Future) : Future :=
  {fu with ready := if fu.timedOut then fu.ready else true}

/-- A turn of the loop over the packets: there is no whole packet, the turn does not end, or a
packet has been read. -/
inductive Turn
  | incomplete
  | failed
  | read (c : Client)

/-- The body of the loop over the packets. `handle_read_two` `skips` the rest of a packet without a
future. `garbage` stands in the buffers of `operator>>`. -/
def turn (skips : Bool) (garbage : ℕ → Byte) (c : Client) : Turn :=
  match getI32 c.in_ with
  | none => .incomplete
  | some (packetSize,rest) =>
    if c.in_.length < (packetSize.signExtend 64+4).toNat then .incomplete
    else
      match getV64 garbage rest with
      | none => .failed
      | some (xid,rest) =>
        match getV32 garbage rest with
        | none => .failed
        | some (errorCode,rest) =>
          let n := (packetSize.signExtend 64-BitVec.ofNat 64 (valSize xid.toInt)-
            BitVec.ofNat 64 (valSize errorCode.toInt)).toNat
          match c.futures.pending xid with
          | some fu =>
            -- the callback runs while `pending_fu_l_` is held, and a `SpinLock` is not reentrant
            if fu.xid ≠ xid ∨ rest.length < n ∨ (fu.notifyReady.ready ∧ fu.callbackLocks) then .failed
            else .read {c with
              in_ := rest.drop n
              futures := {
                pending := update c.futures.pending xid none
                notified := c.futures.notified++[Future.notifyReady {fu with
                  errorCode := errorCode, reply := fu.reply++rest.take n}]}}
          | none =>
            if skips then
              if rest.length < n then .failed else .read {c with in_ := rest.drop n}
            else .read {c with in_ := rest}

/-- The loop of `handle_read`. A packet takes bytes, so there are no more turns than bytes. -/
def readLoop (garbage : ℕ → Byte) : ℕ → Client → Option Client
  | 0,c => some c
  | fuel+1,c =>
    match turn false garbage c with
    | .incomplete => some c
    | .failed => none
    | .read c' => readLoop garbage fuel c'

def handleRead (garbage : ℕ → Byte) (l : List Byte) (c : Client) : Option Client :=
  if c.connected = false ∨ l = [] then some c
  else readLoop garbage (c.in_++l).length {c with in_ := c.in_++l}

def handleReadOne (l : List Byte) (c : Client) : Client :=
  if c.connected then {c with in_ := c.in_++l} else c

/-- The loop of `handle_read_two`, and whether there are no more packets. -/
def readTwoLoop (garbage : ℕ → Byte) : ℕ → Client → Option (Client × Bool)
  | 0,c => some (c,false)
  | i+1,c =>
    match turn true garbage c with
    | .incomplete => some (c,true)
    | .failed => none
    | .read c' => readTwoLoop garbage i c'

def handleReadTwo (garbage : ℕ → Byte) (c : Client) : Option (Client × Bool) :=
  if c.connected then readTwoLoop garbage (if c.isClient then 2147483647 else 5) c
  else some (c,false)

structure Packet where
  xid : Xid
  errorCode : BitVec 32
  payload : List Byte

namespace Packet

def body (p : Packet) : List Byte := putV64 p.xid++putV32 p.errorCode++p.payload

def bytes (p : Packet) : List Byte := putI32 (BitVec.ofNat 32 p.body.length)++p.body

end Packet

/-- A reply is sent, a request begins, a future is given up with `handle_free` or times out, or
bytes are read. -/
inductive Event
  | send (p : Packet)
  | beginRequest (xid : Xid) (callbackLocks : Bool)
  | handleFree (xid : Xid)
  | timeOut (xid : Xid)
  | handleRead (n : ℕ) (garbage : ℕ → Byte)
  | handleReadOne (n : ℕ)
  | handleReadTwo (garbage : ℕ → Byte)

structure Connection where
  client : Client
  wire : List Byte

namespace Futures

def beginRequest (f : Futures) (xid : Xid) (callbackLocks : Bool) : Futures where
  pending := update f.pending xid
    (some ((f.pending xid).getD {xid := xid, callbackLocks := callbackLocks}))
  notified := f.notified

/-- `handle_free` resets the future behind an iterator that it has erased. -/
def handleFree (f : Futures) (xid : Xid) : Option Futures :=
  if (f.pending xid).isSome then none else some f

/-- `timed_wait` of a future that is still pending; the error is `ETIMEDOUT`. -/
def timeOut (f : Futures) (xid : Xid) : Futures where
  pending := update f.pending xid
    ((f.pending xid).map fun fu => {fu with timedOut := true, errorCode := 110})
  notified := f.notified

end Futures

def Connection.withFutures (c : Connection) (f : Futures) : Connection :=
  {c with client := {c.client with futures := f}}

def Connection.step (c : Connection) : Event → Option Connection
  | .send p => some {c with wire := c.wire++p.bytes}
  | .beginRequest xid locks => some (c.withFutures (c.client.futures.beginRequest xid locks))
  | .handleFree xid => (c.client.futures.handleFree xid).map c.withFutures
  | .timeOut xid => some (c.withFutures (c.client.futures.timeOut xid))
  | .handleRead n garbage =>
    (handleRead garbage (c.wire.take n) c.client).map fun d => ⟨d,c.wire.drop n⟩
  | .handleReadOne n => some ⟨handleReadOne (c.wire.take n) c.client,c.wire.drop n⟩
  | .handleReadTwo garbage => (handleReadTwo garbage c.client).map fun d => ⟨d.1,c.wire⟩

/-! ### What the replies mean -/

/-- A packet completes the future that waits for it with its error code and its payload; without
such a future it has no effect. -/
def Futures.answer (f : Futures) (p : Packet) : Futures :=
  match f.pending p.xid with
  | none => f
  | some fu =>
    {pending := update f.pending p.xid none
     notified := f.notified ++
       [Future.notifyReady {fu with errorCode := p.errorCode, reply := p.payload}]}

/-- The futures, the packets that have been sent and not been delivered, and the number of bytes
of these that have been received. -/
structure Demux where
  futures : Futures
  queue : List Packet
  got : ℕ

namespace Demux

def deliver : ℕ → Demux → Demux
  | 0,d => d
  | limit+1,d =>
    match d.queue with
    | [] => d
    | p::queue =>
      if p.bytes.length ≤ d.got then deliver limit ⟨d.futures.answer p,queue,d.got-p.bytes.length⟩
      else d

def stream (d : Demux) : List Byte := d.queue.flatMap Packet.bytes

def receive (d : Demux) (n : ℕ) : Demux := {d with got := min (d.got+n) d.stream.length}

def step (isClient : Bool) (d : Demux) : Event → Demux
  | .send p => {d with queue := d.queue++[p]}
  | .beginRequest xid locks => {d with futures := d.futures.beginRequest xid locks}
  | .handleFree xid => {d with futures.pending := update d.futures.pending xid none}
  | .timeOut xid => {d with futures := d.futures.timeOut xid}
  | .handleRead n _ =>
    if (d.receive n).got = d.got then d else (d.receive n).deliver (d.receive n).got
  | .handleReadOne n => d.receive n
  | .handleReadTwo _ => d.deliver (if isClient then 2147483647 else 5)

/-- The packets that are there and for which nobody waits have no payload. -/
def Quiet : Futures → List Packet → ℕ → Prop
  | _,[],_ => True
  | f,p::queue,got => p.bytes.length ≤ got →
    (f.pending p.xid = none → p.payload = []) ∧
      Quiet (f.answer p) queue (got-p.bytes.length)

end Demux

def connection : System Connection Event where
  init c := c.client.connected = true ∧ c.client.in_ = [] ∧ c.wire = [] ∧
    c.client.futures.pending = (fun _ => none) ∧ c.client.futures.notified = []
  step := Connection.step

def joint : System (Connection × Demux) Event where
  init x := connection.init x.1 ∧ x.2 = ⟨x.1.client.futures,[],0⟩
  step x e := (x.1.step e).map fun c => (c,x.2.step x.1.client.isClient e)

def Packet.Fits (p : Packet) : Prop :=
  p.body.length < 2^31 ∧
    (-2^48 ≤ p.xid.toInt ∧ p.xid.toInt < 2^48 ∨ p.xid.toInt < -2^55 ∨ 2^55 ≤ p.xid.toInt)

/-- The xid of a request is new and its callback does not lock, no pending future is freed, and
`handle_read` finds a future for each packet with a payload. -/
def Ok (x : Connection × Demux) : Event → Prop
  | .send p => p.Fits
  | .beginRequest xid locks => x.2.futures.pending xid = none ∧ locks = false
  | .handleFree xid => x.2.futures.pending xid = none
  | .handleRead n _ => (x.2.receive n).got ≠ x.2.got →
    Demux.Quiet x.2.futures x.2.queue (x.2.receive n).got
  | _ => True

/-! ### One packet -/

variable {p : Packet} {c : Client} {garbage : ℕ → Byte} {rest : List Byte} {n : ℕ} {skips : Bool}
variable {f : Futures} {queue : List Packet}
variable {x : Connection × Demux}

theorem length_putV64 (v : BitVec 64) : (putV64 v).length = valSize v.toInt := by
  simp only [putV64,dump64,valSize]
  split_ifs <;> rfl

theorem length_putV32 (v : BitVec 32) : (putV32 v).length = valSize v.toInt := by
  have hlo := BitVec.le_toInt v
  have hhi := BitVec.toInt_lt (x:=v)
  simp only [putV32,dump32,valSize]
  split_ifs <;> first | rfl | omega

theorem length_bytes (p : Packet) : p.bytes.length = p.body.length+4 := by
  simp [Packet.bytes,putI32,add_comm]

theorem getI32_of_take {v : BitVec 32} {q : List Byte} (hq : q.take 4 = putI32 v) :
    getI32 q = some (v,q.drop 4) := by
  have hlen : 4 ≤ q.length := by
    have := congrArg List.length hq
    simp [putI32] at this
    omega
  have hbytes : ∀ i < 4, q.getD i 0 = pv v.toNat i := by
    intro i hi
    have : (q.take 4)[i]? = (putI32 v)[i]? := by rw [hq]
    simp [putI32,hi] at this
    simp [this]
  have hval : ofBytes (fun i => q.getD i 0) 4 = v.toNat := by
    rw [ofBytes_congr hbytes,ofBytes_pv]
    exact mod_eq_of_lt v.isLt
  unfold getI32
  rw [if_neg (by omega),hval,BitVec.ofNat_toNat,BitVec.setWidth_eq]

theorem signExtend_toNat (hn : n < 2^31) : ((BitVec.ofNat 32 n).signExtend 64).toNat = n := by
  have hmod : n % 2^32 = n := mod_eq_of_lt (by omega)
  have hmsb : (BitVec.ofNat 32 n).msb = false := by
    rw [BitVec.msb_eq_false_iff_two_mul_lt,BitVec.toNat_ofNat,hmod]
    omega
  rw [BitVec.signExtend_eq_setWidth_of_msb_false hmsb,BitVec.toNat_setWidth,BitVec.toNat_ofNat,
    hmod]
  exact mod_eq_of_lt (by omega)

theorem wholeSize_eq (hn : n < 2^31) : ((BitVec.ofNat 32 n).signExtend 64+4).toNat = n+4 := by
  rw [BitVec.toNat_add,signExtend_toNat hn]
  exact mod_eq_of_lt (show n+4 < 2^64 by omega)

theorem restSize_eq {a b : ℕ} (hn : a+b+n < 2^31) :
    ((BitVec.ofNat 32 (a+b+n)).signExtend 64-BitVec.ofNat 64 a-BitVec.ofNat 64 b).toNat = n := by
  rw [BitVec.toNat_sub,BitVec.toNat_sub,signExtend_toNat hn,BitVec.toNat_ofNat,BitVec.toNat_ofNat]
  omega

def Fresh (f : Futures) : Prop :=
  ∀ xid fu, f.pending xid = some fu → fu.xid = xid ∧ fu.reply = [] ∧ fu.callbackLocks = false

theorem turn_whole (hp : p.Fits) (hc : c.in_ = p.bytes++rest) (hf : Fresh c.futures)
    (hquiet : skips = false → c.futures.pending p.xid = none → p.payload = []) :
    turn skips garbage c = .read {c with in_ := rest, futures := c.futures.answer p} := by
  obtain ⟨hsize,hxid⟩ := hp
  have hbody : p.body.length = valSize p.xid.toInt+valSize p.errorCode.toInt+p.payload.length := by
    simp only [Packet.body,length_append,length_putV64,length_putV32]
  have hi32 : getI32 c.in_ = some (BitVec.ofNat 32 p.body.length,p.body++rest) := by
    have htake : c.in_.take 4 = putI32 (BitVec.ofNat 32 p.body.length) := by
      rw [hc,Packet.bytes,append_assoc]
      exact take_left' (by simp [putI32])
    rw [getI32_of_take htake,hc,Packet.bytes,append_assoc,drop_left' (by simp [putI32])]
  have hwhole : ¬c.in_.length < ((BitVec.ofNat 32 p.body.length).signExtend 64+4).toNat := by
    rw [wholeSize_eq hsize,hc,length_append,length_bytes]
    omega
  have hn := restSize_eq (hbody ▸ hsize)
  have hxid' : getV64 garbage (p.body++rest) =
      some (p.xid,putV32 p.errorCode++(p.payload++rest)) := by
    rw [Packet.body,append_assoc,append_assoc]
    exact getV64_putV64 hxid _ garbage
  simp only [turn,hi32,if_neg hwhole,hxid',getV32_putV32]
  rw [hbody,hn]
  cases hfu : c.futures.pending p.xid with
  | some fu =>
    obtain ⟨hkey,hreply,hlocks⟩ := hf _ _ hfu
    have hok : ¬(fu.xid ≠ p.xid ∨ (p.payload++rest).length < p.payload.length ∨
        (fu.notifyReady.ready ∧ fu.callbackLocks)) := by
      simp [hkey,hlocks]
    dsimp only
    rw [if_neg hok]
    simp [Futures.answer,hfu,hreply]
  | none =>
    have hok : ¬(p.payload++rest).length < p.payload.length := by simp
    cases skips with
    | true =>
      simp [Futures.answer,hfu]
    | false =>
      simp [Futures.answer,hfu,hquiet rfl hfu]

theorem turn_incomplete (hp : p.Fits) (hn : n < p.bytes.length)
    (hc : c.in_ = p.bytes.take n) : turn skips garbage c = .incomplete := by
  have hlen : c.in_.length = n := by
    rw [hc,length_take,min_eq_left hn.le]
  unfold turn
  by_cases hshort : n < 4
  · have : getI32 c.in_ = none := if_pos (by omega)
    rw [this]
  · have htake : c.in_.take 4 = putI32 (BitVec.ofNat 32 p.body.length) := by
      rw [hc,take_take,min_eq_left (by omega),Packet.bytes]
      exact take_left' (by simp [putI32])
    rw [getI32_of_take htake]
    dsimp only
    rw [if_pos]
    rw [wholeSize_eq hp.1,hlen]
    rwa [length_bytes] at hn

theorem turn_nil (hc : c.in_ = []) : turn skips garbage c = .incomplete := by
  unfold turn
  have : getI32 c.in_ = none := if_pos (by simp [hc])
  rw [this]

/-! ### All packets -/

variable {d : Demux}

def Client.load (c : Client) (d : Demux) : Client :=
  {c with in_ := d.stream.take d.got, futures := d.futures}

structure Demux.Sane (d : Demux) : Prop where
  fresh : Fresh d.futures
  fits : ∀ p ∈ d.queue, p.Fits
  got : d.got ≤ d.stream.length

theorem fresh_answer (hf : Fresh f) (p : Packet) : Fresh (f.answer p) := by
  unfold Futures.answer
  split
  · exact hf
  · intro xid fu hfu
    by_cases hx : xid = p.xid
    · subst hx
      simp at hfu
    · simp only [update_of_ne hx] at hfu
      exact hf xid fu hfu

theorem turn_load (garbage : ℕ → Byte) (c : Client) (skips : Bool) (hd : d.Sane)
    (hq : d.queue = p::queue) (hgot : p.bytes.length ≤ d.got)
    (hquiet : skips = false → d.futures.pending p.xid = none → p.payload = []) :
    let d' : Demux := ⟨d.futures.answer p,queue,d.got-p.bytes.length⟩
    turn skips garbage (c.load d) = .read (c.load d') ∧ d'.Sane := by
  intro d'
  have hstream : d.stream = p.bytes++d'.stream := by
    unfold Demux.stream
    rw [hq]
    rfl
  have hp : p.Fits := hd.fits p (hq ▸ mem_cons_self)
  refine ⟨?_,fresh_answer hd.fresh p,fun p' hp' => hd.fits p' (hq ▸ mem_cons_of_mem _ hp'),?_⟩
  · refine turn_whole hp ?_ hd.fresh hquiet
    change d.stream.take d.got = p.bytes++d'.stream.take (d.got-p.bytes.length)
    rw [hstream,take_append,take_of_length_le hgot]
  · have := hd.got
    rw [hstream,length_append] at this
    change d.got-p.bytes.length ≤ _
    omega

theorem turn_stop (hd : d.Sane) (hq : ∀ p ∈ d.queue.head?, d.got < p.bytes.length) :
    turn skips garbage (c.load d) = .incomplete := by
  cases hqueue : d.queue with
  | nil =>
    refine turn_nil ?_
    simp [Client.load,Demux.stream,hqueue]
  | cons p queue =>
    have hlt := hq p (by rw [hqueue]; rfl)
    refine turn_incomplete (hd.fits p (hqueue ▸ mem_cons_self)) hlt ?_
    change d.stream.take d.got = _
    unfold Demux.stream
    rw [hqueue,flatMap_cons,take_append_of_le_length hlt.le]

theorem deliver_stop (hq : ∀ p ∈ d.queue.head?, d.got < p.bytes.length) (limit : ℕ) :
    d.deliver limit = d := by
  cases limit with
  | zero => rfl
  | succ limit =>
    unfold Demux.deliver
    split
    · rfl
    next p queue hqueue =>
      rw [if_neg (not_le.mpr (hq p (by rw [hqueue]; rfl)))]

theorem deliver_cons (hq : d.queue = p::queue) (hgot : p.bytes.length ≤ d.got) (limit : ℕ) :
    d.deliver (limit+1) = Demux.deliver limit ⟨d.futures.answer p,queue,d.got-p.bytes.length⟩ := by
  rw [Demux.deliver,hq]
  exact if_pos hgot

theorem next_packet (d : Demux) : (∃ p queue, d.queue = p::queue ∧ p.bytes.length ≤ d.got) ∨
      ∀ p ∈ d.queue.head?, d.got < p.bytes.length := by
  cases hq : d.queue with
  | nil => exact .inr nofun
  | cons p queue =>
    rcases lt_or_ge d.got p.bytes.length with hlt | hle
    · refine .inr ?_
      rintro _ ⟨⟩
      exact hlt
    · exact .inl ⟨p,queue,rfl,hle⟩

theorem readTwoLoop_load (hd : d.Sane) (limit : ℕ) : (d.deliver limit).Sane ∧
    ∃ done, readTwoLoop garbage limit (c.load d) = some (c.load (d.deliver limit),done) := by
  induction limit generalizing d with
  | zero => exact ⟨hd,false,rfl⟩
  | succ limit ih =>
    rcases next_packet d with ⟨p,queue,hq,hgot⟩ | hstop
    · obtain ⟨hturn,hd'⟩ := turn_load garbage c true hd hq hgot nofun
      rw [deliver_cons hq hgot]
      obtain ⟨hsane,done,hloop⟩ := ih hd'
      refine ⟨hsane,done,?_⟩
      rw [readTwoLoop,hturn]
      exact hloop
    · rw [deliver_stop hstop]
      refine ⟨hd,true,?_⟩
      rw [readTwoLoop,turn_stop hd hstop]

/-- The loop of `handle_read` delivers them if those without a future have no payload. -/
theorem readLoop_load (garbage : ℕ → Byte) (c : Client) (hd : d.Sane) (hquiet : Demux.Quiet d.futures d.queue d.got) (fuel : ℕ) :
    (d.deliver fuel).Sane ∧ readLoop garbage fuel (c.load d) = some (c.load (d.deliver fuel)) := by
  induction fuel generalizing d with
  | zero => exact ⟨hd,rfl⟩
  | succ fuel ih =>
    rcases next_packet d with ⟨p,queue,hq,hgot⟩ | hstop
    · rw [hq] at hquiet
      obtain ⟨hpay,hrest⟩ := hquiet hgot
      obtain ⟨hturn,hd'⟩ := turn_load garbage c false hd hq hgot fun _ => hpay
      rw [deliver_cons hq hgot]
      obtain ⟨hsane,hloop⟩ := ih hd' hrest
      refine ⟨hsane,?_⟩
      rw [readLoop,hturn]
      exact hloop
    · rw [deliver_stop hstop]
      refine ⟨hd,?_⟩
      rw [readLoop,turn_stop hd hstop]

theorem deliver_add (a b : ℕ) : d.deliver (a+b) = (d.deliver a).deliver b := by
  induction a generalizing d with
  | zero => rw [zero_add]; rfl
  | succ a ih =>
    rw [succ_add]
    rcases next_packet d with ⟨p,queue,hq,hgot⟩ | hstop
    · rw [deliver_cons hq hgot,deliver_cons hq hgot,ih]
    · rw [deliver_stop hstop,deliver_stop hstop,deliver_stop hstop]

theorem deliver_got (hn : d.got ≤ n) :
    ∀ p ∈ (d.deliver n).queue.head?, (d.deliver n).got < p.bytes.length := by
  induction n generalizing d with
  | zero =>
    intro p _
    change d.got < _
    rw [length_bytes]
    omega
  | succ n ih =>
    rcases next_packet d with ⟨p,queue,hq,hgot⟩ | hstop
    · rw [deliver_cons hq hgot]
      refine ih ?_
      change d.got-p.bytes.length ≤ n
      rw [length_bytes]
      omega
    · rwa [deliver_stop hstop]

theorem deliver_of_le (hn : d.got ≤ n) : d.deliver n = d.deliver d.got := by
  obtain ⟨k,rfl⟩ := Nat.exists_eq_add_of_le hn
  rw [deliver_add,deliver_stop (deliver_got le_rfl)]

/-! ### Runs -/

/-- The bytes on the way, the bytes of `in_` and the futures are those of the packets. -/
structure Meets (x : Connection × Demux) : Prop where
  connected : x.1.client.connected = true
  conn : x.1 = ⟨x.1.client.load x.2,x.2.stream.drop x.2.got⟩
  sane : x.2.Sane

theorem stream_receive (n : ℕ) : (d.receive n).stream = d.stream := rfl

theorem take_receive (n : ℕ) :
    d.stream.take d.got++(d.stream.drop d.got).take n = d.stream.take (d.receive n).got := by
  rw [← take_add,Demux.receive]
  rcases le_total (d.got+n) d.stream.length with hle | hle
  · rw [min_eq_left hle]
  · rw [min_eq_right hle,take_of_length_le hle,take_length]

theorem drop_receive (n : ℕ) : (d.stream.drop d.got).drop n = d.stream.drop (d.receive n).got := by
  rw [drop_drop,Demux.receive]
  rcases le_total (d.got+n) d.stream.length with hle | hle
  · rw [min_eq_left hle]
  · rw [min_eq_right hle,drop_of_length_le hle,drop_length]

theorem Demux.Sane.receive (hd : d.Sane) (n : ℕ) : (d.receive n).Sane :=
  ⟨hd.fresh,hd.fits,min_le_right _ _⟩

theorem drop_deliver (d : Demux) (limit : ℕ) :
    (d.deliver limit).stream.drop (d.deliver limit).got = d.stream.drop d.got := by
  induction limit generalizing d with
  | zero => rfl
  | succ limit ih =>
    rcases next_packet d with ⟨p,queue,hq,hgot⟩ | hstop
    · rw [deliver_cons hq hgot,ih]
      unfold Demux.stream
      rw [hq,flatMap_cons,drop_append,drop_of_length_le hgot,nil_append]
    · rw [deliver_stop hstop]

theorem handleReadOne_load (hc : c.connected = true) (n : ℕ) :
    handleReadOne ((d.stream.drop d.got).take n) (c.load d) = c.load (d.receive n) := by
  unfold handleReadOne
  have : (c.load d).connected = true := hc
  rw [if_pos this]
  simp only [Client.load,take_receive,stream_receive]
  rfl

theorem handleReadTwo_load (garbage : ℕ → Byte) (hc : c.connected = true) (hd : d.Sane) :
    (d.deliver (if c.isClient then 2147483647 else 5)).Sane ∧
    ∃ done, handleReadTwo garbage (c.load d) =
      some (c.load (d.deliver (if c.isClient then 2147483647 else 5)),done) := by
  unfold handleReadTwo
  have : (c.load d).connected = true := hc
  rw [if_pos this]
  exact readTwoLoop_load hd _

theorem handleRead_load (garbage : ℕ → Byte) (hc : c.connected = true) (hd : d.Sane) (n : ℕ)
    (hquiet : (d.receive n).got ≠ d.got → Demux.Quiet d.futures d.queue (d.receive n).got) :
    let d' := if (d.receive n).got = d.got then d else (d.receive n).deliver (d.receive n).got
    d'.Sane ∧ d'.stream.drop d'.got = (d.stream.drop d.got).drop n ∧
      handleRead garbage ((d.stream.drop d.got).take n) (c.load d) = some (c.load d') := by
  intro d'
  have htake := take_receive (d:=d) n
  have hlen : (d.stream.drop d.got).take n = [] ↔ (d.receive n).got = d.got := by
    have hgot := hd.got
    rw [← length_eq_zero_iff,length_take,length_drop]
    unfold Demux.receive
    dsimp only
    omega
  unfold handleRead
  by_cases hsame : (d.receive n).got = d.got
  · rw [if_pos (.inr (hlen.mpr hsame))]
    have : d' = d := if_pos hsame
    rw [this,drop_receive,hsame]
    exact ⟨hd,rfl,rfl⟩
  · have hne : ¬((c.load d).connected = false ∨ (d.stream.drop d.got).take n = []) := by
      rintro (hno | hnil)
      · change c.connected = false at hno
        rw [hc] at hno
        cases hno
      · exact hsame (hlen.mp hnil)
    have hd' : d' = (d.receive n).deliver (d.receive n).got := if_neg hsame
    obtain ⟨hsane,hloop⟩ := readLoop_load garbage c (hd.receive n) (hquiet hsame) (d.receive n).got
    rw [if_neg hne,hd']
    refine ⟨hsane,by rw [drop_deliver,drop_receive,stream_receive],?_⟩
    have hin : (c.load d).in_++(d.stream.drop d.got).take n =
        d.stream.take (d.receive n).got := htake
    have hsize : (d.stream.take (d.receive n).got).length = (d.receive n).got := by
      rw [length_take]
      exact min_eq_left (hd.receive n).got
    rw [hin,hsize]
    exact hloop

theorem fresh_update (hf : Fresh f) {xid : Xid} {o : Option Future}
    (ho : ∀ fu ∈ o, fu.xid = xid ∧ fu.reply = [] ∧ fu.callbackLocks = false) {l : List Future} :
    Fresh ⟨update f.pending xid o,l⟩ := by
  intro xid' fu hfu
  by_cases hx : xid' = xid
  · subst hx
    simp only [update_self] at hfu
    exact ho fu hfu
  · simp only [update_of_ne hx] at hfu
    exact hf xid' fu hfu

theorem meets_step {e : Event} (hx : Meets x) (hok : Ok x e) :
    ∃ c, x.1.step e = some c ∧ Meets (c,x.2.step x.1.client.isClient e) := by
  obtain ⟨conn,d⟩ := x
  obtain ⟨hc,hconn,hd⟩ := hx
  dsimp only at hc hconn hd
  generalize conn.client = c at hc hconn
  subst hconn
  cases e with
  | send p =>
    have hstream : ({d with queue := d.queue++[p]} : Demux).stream = d.stream++p.bytes := by
      simp [Demux.stream]
    refine ⟨_,rfl,hc,?_,hd.fresh,fun p' hp' => ?_,?_⟩
    · simp only [Demux.step,Client.load]
      rw [hstream,take_append_of_le_length hd.got,drop_append_of_le_length hd.got]
    · rcases mem_append.mp hp' with hp' | hp'
      · exact hd.fits p' hp'
      · exact mem_singleton.mp hp' ▸ hok
    · have := hd.got
      simp only [Demux.step]
      rw [hstream,length_append]
      omega
  | beginRequest xid locks =>
    obtain ⟨hnone,hlocks⟩ : d.futures.pending xid = none ∧ locks = false := hok
    refine ⟨_,rfl,hc,rfl,fresh_update hd.fresh ?_,hd.fits,hd.got⟩
    rintro fu ⟨⟩
    rw [hnone]
    exact ⟨rfl,rfl,hlocks⟩
  | handleFree xid =>
    have hnone : d.futures.pending xid = none := hok
    have hsame : update d.futures.pending xid none = d.futures.pending :=
      update_eq_iff.mpr ⟨hnone.symm,fun _ _ => rfl⟩
    refine ⟨⟨c.load d,d.stream.drop d.got⟩,?_,?_⟩
    · simp [Connection.step,Client.load,Futures.handleFree,hnone,Connection.withFutures]
    · simp only [Demux.step,hsame]
      exact ⟨hc,rfl,hd⟩
  | timeOut xid =>
    refine ⟨_,rfl,hc,rfl,fresh_update hd.fresh ?_,hd.fits,hd.got⟩
    intro fu hfu
    obtain ⟨fu',hfu',rfl⟩ := Option.map_eq_some_iff.mp hfu
    exact hd.fresh xid fu' hfu'
  | handleRead n garbage =>
    obtain ⟨hsane,hwire,hread⟩ := handleRead_load garbage (c:=c) hc hd n hok
    refine ⟨⟨_,_⟩,by simp only [Connection.step,hread,Option.map_some]; rfl,?_⟩
    rw [← hwire]
    exact ⟨hc,rfl,hsane⟩
  | handleReadOne n =>
    refine ⟨_,rfl,?_⟩
    simp only [handleReadOne_load hc,drop_receive]
    exact ⟨hc,rfl,hd.receive n⟩
  | handleReadTwo garbage =>
    obtain ⟨hsane,done,hread⟩ := handleReadTwo_load garbage (c:=c) hc hd
    refine ⟨⟨_,_⟩,by simp only [Connection.step,hread,Option.map_some]; rfl,?_⟩
    rw [← drop_deliver d (if c.isClient then 2147483647 else 5)]
    exact ⟨hc,rfl,hsane⟩

theorem repeat_handleReadTwo (garbage : ℕ → Byte) (hc : c.connected = true) (hd : d.Sane)
    (wire : List Byte) (k : ℕ) : ∃ limit, k ≤ limit ∧
      exec connection (fun _ _ => True) ⟨c.load d,wire⟩
        (List.replicate k (.handleReadTwo garbage)) = some ⟨c.load (d.deliver limit),wire⟩ := by
  induction k generalizing d with
  | zero => exact ⟨0,le_rfl,rfl⟩
  | succ k ih =>
    obtain ⟨hsane,done,hread⟩ := handleReadTwo_load garbage (c:=c) hc hd
    obtain ⟨limit,hle,hexec⟩ := ih hsane
    refine ⟨(if c.isClient then 2147483647 else 5)+limit,?_,?_⟩
    · split_ifs <;> omega
    · rw [replicate_succ,exec,if_pos trivial,deliver_add]
      simp only [connection,Connection.step,hread,Option.map_some,Option.bind_some]
      exact hexec

theorem meets_init (hx : joint.init x) : Meets x := by
  obtain ⟨⟨⟨connected,isClient,in_,futures⟩,wire⟩,d⟩ := x
  obtain ⟨⟨hc,hin,hwire,hpending,-⟩,hd⟩ := hx
  dsimp only at hc hin hwire hpending hd
  subst hin hwire hd
  refine ⟨hc,rfl,fun xid fu hfu => ?_,forall_mem_nil _,le_rfl⟩
  rw [hpending] at hfu
  cases hfu

/-- Where bytes arrive, the pair of calls does what `handle_read` does. -/
theorem two_calls {garbage : ℕ → Byte} (hx : Meets x)
    (hok : Ok x (.handleRead n garbage)) (hn : 0 < n) (hwire : x.1.wire ≠ []) : ∃ k,
      exec connection (fun _ _ => True) x.1
        (.handleReadOne n::List.replicate k (.handleReadTwo garbage)) =
      x.1.step (.handleRead n garbage) := by
  obtain ⟨conn,d⟩ := x
  obtain ⟨hc,hconn,hd⟩ := hx
  dsimp only at hc hconn hd
  generalize conn.client = c at hc hconn
  subst hconn
  have hgot : (d.receive n).got ≠ d.got := by
    have hlen : 0 < (d.stream.drop d.got).length := length_pos_iff.mpr hwire
    rw [length_drop] at hlen
    unfold Demux.receive
    dsimp only
    omega
  obtain ⟨-,-,hread⟩ := handleRead_load garbage (c:=c) hc hd n hok
  obtain ⟨limit,hle,hexec⟩ := repeat_handleReadTwo garbage hc (hd.receive n)
    ((d.stream.drop d.got).drop n) (d.receive n).got
  refine ⟨(d.receive n).got,?_⟩
  rw [exec,if_pos trivial]
  simp only [connection,Connection.step,handleReadOne_load hc,Option.bind_some,hread,
    Option.map_some,if_neg hgot]
  rw [← deliver_of_le hle]
  exact hexec

/-- Where packets come back from the codec and `handle_read` finds a future for each packet with a
payload, a packet completes its own future only, whole packets are taken off, and both ways to read
do the same. -/
theorem replies_demultiplexed {x : Connection × Demux} (h : ReachableBy joint Ok x) :
    x.1.client.futures = x.2.futures ∧ x.1.client.in_ = x.2.stream.take x.2.got ∧
      x.1.wire = x.2.stream.drop x.2.got ∧
    (∀ e, Ok x e → ∃ c, x.1.step e = some c) ∧
    ∀ n garbage, Ok x (.handleRead n garbage) → 0 < n → x.1.wire ≠ [] → ∃ k,
      exec connection (fun _ _ => True) x.1
        (.handleReadOne n::List.replicate k (.handleReadTwo garbage)) =
      x.1.step (.handleRead n garbage) := by
  obtain ⟨x₀,hinit,hrun⟩ := h
  have hx : Meets x := by
    refine hrun.invariant (fun y e z hok hy hstep => ?_) ?_
    · obtain ⟨c,hc,hm⟩ := meets_step hy hok
      simp only [joint,hc,Option.map_some,Option.some.injEq] at hstep
      exact hstep ▸ hm
    · exact meets_init hinit
  refine ⟨?_,?_,?_,fun e hok => (meets_step hx hok).imp fun _ h => h.1,
    fun n garbage hok hn hwire => two_calls hx hok hn hwire⟩
  · rw [hx.conn]
    rfl
  · rw [hx.conn]
    rfl
  · rw [hx.conn]

instance (p : Packet) : Decidable p.Fits :=
  inferInstanceAs (Decidable (p.body.length < 2^31 ∧
    (-2^48 ≤ p.xid.toInt ∧ p.xid.toInt < 2^48 ∨ p.xid.toInt < -2^55 ∨ 2^55 ≤ p.xid.toInt)))

instance decidableQuiet : ∀ f queue got, Decidable (Demux.Quiet f queue got)
  | _,[],_ => isTrue trivial
  | f,p::queue,got =>
    haveI := decidableQuiet (f.answer p) queue (got-p.bytes.length)
    inferInstanceAs (Decidable (p.bytes.length ≤ got →
      (f.pending p.xid = none → p.payload = []) ∧
        Demux.Quiet (f.answer p) queue (got-p.bytes.length)))

instance (x : Connection × Demux) (e : Event) : Decidable (Ok x e) :=
  match e with
  | .send p => inferInstanceAs (Decidable p.Fits)
  | .beginRequest xid locks =>
    inferInstanceAs (Decidable (x.2.futures.pending xid = none ∧ locks = false))
  | .handleFree xid => inferInstanceAs (Decidable (x.2.futures.pending xid = none))
  | .handleRead n _ => inferInstanceAs (Decidable ((x.2.receive n).got ≠ x.2.got →
      Demux.Quiet x.2.futures x.2.queue (x.2.receive n).got))
  | .timeOut _ | .handleReadOne _ | .handleReadTwo _ =>
    inferInstanceAs (Decidable True)

def idle : Connection := ⟨⟨true,false,[],⟨fun _ => none,[]⟩⟩,[]⟩

/-- Two requests, one of which times out. A reply without a future has no payload, and the reply of
the other comes in two parts. -/
def splitReplies : List Event :=
  [.beginRequest 1 false,.beginRequest 2 false,.timeOut 1,.send ⟨9,3,[]⟩,.send ⟨2,0,[7,8]⟩,
    .handleRead 8 fun _ => 0,.handleRead 8 fun _ => 0]

theorem replies_demultiplexed_split : (after joint Ok (idle,⟨idle.client.futures,[],0⟩)
      splitReplies).1.client.futures.notified = [{xid := 2, reply := [7,8], ready := true}] ∧
    (after joint Ok (idle,⟨idle.client.futures,[],0⟩) splitReplies).1.client.in_ = [] := by
  obtain ⟨hfutures,hin,-⟩ := replies_demultiplexed
    ⟨_,⟨⟨rfl,rfl,rfl,rfl,rfl⟩,rfl⟩,run_after (idle,⟨idle.client.futures,[],0⟩) splitReplies⟩
  decide +kernel

def forged : List Event :=
  [.beginRequest 1 false,.send ⟨9,0,(Packet.mk 1 5 [66]).bytes⟩,.send ⟨1,0,[7]⟩]

/-- `handle_read` takes the payload of a packet without a future for the next packet: request `1`
is completed with the error code `5` and the payload `66` instead of `0` and `7`. An xid of eight
bytes is not found. A pending future cannot be freed, and a reply whose callback locks is not
delivered. -/
theorem handle_read_misreads :
    ((exec connection (fun _ _ => True) idle (forged++[.handleRead 99 fun _ => 0])).map
        fun c => c.client.futures.notified) =
      some [{xid := 1, errorCode := 5, reply := [66], ready := true}] ∧
    ((exec connection (fun _ _ => True) idle
        (forged++[.handleReadOne 99,.handleReadTwo fun _ => 0])).map
        fun c => c.client.futures.notified) =
      some [{xid := 1, reply := [7], ready := true}] ∧
    ((exec connection (fun _ _ => True) idle
        [.beginRequest 1125899906842625 false,.send ⟨1125899906842625,0,[]⟩,.handleReadOne 99,
          .handleReadTwo fun _ => 0]).map fun c => c.client.futures.notified) = some [] ∧
    ((exec connection (fun _ _ => True) idle [.beginRequest 1 false,.handleFree 1]).map
        fun c => c.client.futures.notified) = none ∧
    ∀ read ∈ [[Event.handleRead 99 fun _ => 0],[.handleReadOne 99,.handleReadTwo fun _ => 0]],
      ((exec connection (fun _ _ => True) idle
        ([.beginRequest 1 true,.send ⟨1,0,[]⟩]++read)).map fun c => c.client.futures.notified) =
      none := by
  decide +kernel

end Janus.ClientReplies
