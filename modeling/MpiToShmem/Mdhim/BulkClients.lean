import MpiToShmem.Mdhim.Bulk
import MpiToShmem.Mdhim.BulkServer

/-!
# Clients with all their calls

A client sends the messages of a call to the range servers at once and waits for a response of each;
then it adds the message for its own range server to the work queue there and waits in `get_msg_self`.
Meanwhile the other clients do the same.

1. `ClientOp.messages`: the messages of a call.
2. `clientsStep`: a step of a client, of the network or of a worker. The records of a call have events
   of their own in `record`: the call and the return, and between them when it is handled.
3. `mem_messages_spec`: each message has records of its server, and no two messages go to one server.
-/

namespace MpiToShmem

open Kit

variable {K S : Type}

/-- The `mdhim_t` of each rank; all find the same servers. -/
structure Ranks (ks : Keyspace K S) where
  md : ℕ → Mdhim
  rank : ∀ i, (md i).mdhimRank = i
  ok : ∀ i, (md i).Ok
  imRangeServer : ∀ i, ∀ ri ∈ (md i).rangesrvs, ri.rank = i → (md i).imRangeServer
  server : ∀ i k, (getRangeServer (md i) (some (ks.bytes k))).map RangesrvInfo.rank = ks.server k

/-- The ranks after `mdhimInit`. -/
def intRanks (o : IntOptions) (size : ℕ) (hsize : 0 < size) : Ranks (intKeyspace (o := o)
    ⟨o.toMdhimOptions, 0, size, getNumRangeServers o.toMdhimOptions size,
      rangesrvsOf o.toMdhimOptions size, rangesrvMaster (rangesrvsOf o.toMdhimOptions size)⟩) where
  md i := ⟨o.toMdhimOptions, i, size, getNumRangeServers o.toMdhimOptions size,
    rangesrvsOf o.toMdhimOptions size, rangesrvMaster (rangesrvsOf o.toMdhimOptions size)⟩
  rank _ := rfl
  ok i := mdhimOk hsize (mdhimInit_eq hsize i)
  imRangeServer i ri hri hrank := by
    obtain ⟨-, hnum, heq⟩ := mem_rangesrvsOf.mp hri
    subst hrank
    exact fun he => hnum (heq.symm.trans he)
  server _ _ := rfl

/-- `mdhimPut`, `mdhimGet` or `mdhimDelete`, and the bulk calls. -/
inductive ClientOp (K : Type) where
  | one (message : Request K)
  | bput (recs : List (K × Value))
  | bget (keys : List K)
  | bdelete (keys : List K)
deriving DecidableEq

/-- The records of a call as requests. -/
def ClientOp.requests : ClientOp K → List (Request K)
  | one message => [message]
  | bput recs => recs.map fun r => .put r.1 r.2
  | bget keys => keys.map .get
  | bdelete keys => keys.map .del

/-! ## The messages of a call -/

/-- The messages to other ranks, by rank, and the one to ourselves. -/
abbrev Messages (K : Type) := List (ℕ × ServerWork K) × Option (ServerWork K)

/-- A call with one message. -/
def singleMessages (md : Mdhim) (key : List UInt8) (work : ServerWork K) : Messages K :=
  match getRangeServer md (some key) with
  | none => ([], none)
  | some ri =>
    if md.imRangeServer ∧ md.mdhimRank = ri.rank then ([], some work) else ([(ri.rank, work)], none)

/-- A bulk call. -/
def bulkMessages {R : Type} (md : Mdhim) (key : R → List UInt8) (recs : List R)
    (work : List (R × ℕ) → ServerWork K) : Messages K :=
  if maxBulkOps < recs.length then ([], none)
  else
    let b := bulkLists md (fun r => key r.1) recs.zipIdx
    (b.list.reduceOption.map fun m => (m.serverRank, work m.recs), b.own.map fun m => work m.recs)

variable (ks : Keyspace K S)

/-- `local_client_bput` refuses a message that is too large; no other message to ourselves is. -/
def ServerWork.fits : ServerWork K → Bool
  | bput recs =>
    layoutSize Bputm.layout + recLens (recs.map fun r => (ks.bytes r.1.1, r.1.2)) ≤ mdhimMaxMsgSize
  | _ => true

def ClientOp.messages (md : Mdhim) : ClientOp K → Messages K
  | one message => singleMessages md (ks.bytes message.key) (.one message)
  | bput recs =>
    let (remote, own) := bulkMessages md (fun r => ks.bytes r.1) recs .bput
    (remote, own.filter fun w => w.fits ks)
  | bget keys => bulkMessages md ks.bytes keys .bget
  | bdelete keys => bulkMessages md ks.bytes keys .bdel

/-- The message to `rank` packs. -/
def ServerWork.packs (rank : ℕ) : ServerWork K → Bool
  | one message => message.packs ks rank
  | bput recs =>
    (packBputMessage ⟨2, rank, 0, recs.map fun r => (ks.bytes r.1.1, r.1.2)⟩).isSome
  | bget keys => (packBgetMessage ⟨4, rank, 0, 0, keys.map fun k => ks.bytes k.1⟩).isSome
  | bdel keys => (packBdelMessage ⟨6, rank, 0, keys.map fun k => ks.bytes k.1⟩).isSome

/-- The message of a reply of `rank` packs; a missing value has length zero. -/
def WorkReply.packs (rank : ℕ) : WorkReply K → Bool
  | reply r => r.packs ks rank
  | bgetrm error recs =>
    (packBgetrmMessage ⟨10, rank, 0, error, recs.map fun r => (ks.bytes r.1, r.2.getD [])⟩).isSome

/-! ## Steps -/

/-- Where a client is: between calls, in `receive_all_client_responses` for the messages it has sent,
or in `get_msg_self` with what it knows of its records. -/
inductive BulkPc (K : Type) where
  | idle
  | receiving (call : ℕ) (remote : List (ℕ × ServerWork K)) (own : Option (ServerWork K))
  | getMsgSelf (call : ℕ) (results : List (ℕ × RecordResult)) (own : ServerWork K)
deriving DecidableEq

/-- `work_item`, with the number of the call. -/
structure WorkPart (K : Type) where
  source : ℕ
  call : ℕ
  work : ServerWork K
deriving DecidableEq

/-- The range servers and their queues; the clients, with the number of their calls; the messages on
their way, by client and rank of the server, in order; `receive_msg` of each rank. A record is named by
client, call and number. -/
structure Clients (K S : Type) [LinearOrder K] where
  server : ℕ → RangeServer K S
  workQueue : ℕ → List (WorkPart K)
  pc : ℕ → BulkPc K
  calls : ℕ → ℕ
  sent : ℕ → ℕ → List (WorkPart K)
  response : ℕ → ℕ → List (WorkReply K)
  receiveMsg : ℕ → Option (WorkReply K)
  record : List (Mark (ℕ × ℕ × ℕ) (Request K) RecordResult)

inductive ClientsLabel (K : Type) where
  | call (client : ℕ) (op : ClientOp K)
  | arrive (client rank : ℕ)
  | work (rank : ℕ)
  | ret (client : ℕ)
deriving DecidableEq

section Steps

variable [LinearOrder K]

def Clients.init : Clients K S :=
  ⟨fun _ => .init, fun _ => [], fun _ => .idle, fun _ => 0, fun _ _ => [], fun _ _ => [],
    fun _ => none, []⟩

/-- What a reply says about the records of a message, by number. -/
def numbered (w : ServerWork K) (reply : WorkReply K) : List (ℕ × RecordResult) :=
  (w.requests.map Prod.snd).zip (reply.results w)

def Clients.queue (c : Clients K S) (rank : ℕ) (part : WorkPart K) : Clients K S :=
  { c with workQueue := Function.update c.workQueue rank (c.workQueue rank ++ [part]) }

/-- The call of a client is over. -/
def Clients.finish (c : Clients K S) (client call : ℕ) (results : List (ℕ × RecordResult)) :
    Clients K S :=
  { c with
    pc := Function.update c.pc client .idle
    record := c.record ++ results.map fun r => Mark.event (.ret (client, call, r.1) r.2) }

variable {ks} (R : Ranks ks)

/-- The messages of a call are sent. When one does not pack, the client does not wait for those that
do. -/
def Clients.call (c : Clients K S) (client : ℕ) (op : ClientOp K) : Option (Clients K S) :=
  if c.pc client ≠ .idle then none
  else
    let n := c.calls client
    let (remote, own) := op.messages ks (R.md client)
    let sent := remote.filter fun m => m.2.packs ks m.1
    some { c with
      calls := Function.update c.calls client (n + 1)
      record := c.record ++
        op.requests.zipIdx.map fun r => Mark.event (.call (client, n, r.2) r.1)
      sent := Function.update c.sent client fun rank => c.sent client rank ++
        (sent.filter fun m => m.1 = rank).map fun m => ⟨client, n, m.2⟩
      pc := Function.update c.pc client
        (.receiving n (if remote.all fun m => m.2.packs ks m.1 then remote else []) own) }

/-- The listener of `rank` takes a message of a client. -/
def Clients.arrive (c : Clients K S) (client rank : ℕ) : Option (Clients K S) :=
  match c.sent client rank with
  | [] => none
  | part :: parts =>
    some { c.queue rank part with
      sent := Function.update c.sent client (Function.update (c.sent client) rank parts) }

variable (ks) in
/-- `send_locally_or_remote`. A response that does not pack is not sent. -/
def Clients.respond (c : Clients K S) (rank client : ℕ) (reply : WorkReply K) : Clients K S :=
  if client = rank then { c with receiveMsg := Function.update c.receiveMsg rank (some reply) }
  else if reply.packs ks rank then
    { c with
      response := Function.update c.response client
        (Function.update (c.response client) rank (c.response client rank ++ [reply])) }
  else c

/-- The records of a message take effect. -/
def WorkPart.effects (part : WorkPart K) (reply : WorkReply K) :
    List (Done (ℕ × ℕ × ℕ) (Request K) RecordResult) :=
  List.zipWith (fun r result => ⟨(part.source, part.call, r.2), r.1, result⟩) part.work.requests
    (reply.results part.work)

variable [LinearOrder S] (ks) (append : Bool)

/-- The worker of `rank` handles the next message. -/
def Clients.work (c : Clients K S) (rank : ℕ) : Option (Clients K S) :=
  match c.workQueue rank with
  | [] => none
  | part :: parts => do
    let (s, reply) ← handleWork ks append (c.server rank) part.work
    let c := { c with
      server := Function.update c.server rank s
      workQueue := Function.update c.workQueue rank parts
      record := c.record ++ (part.effects reply).map Mark.effect }
    some (c.respond ks rank part.source reply)

omit [LinearOrder S] in
/-- A client has its responses, or its message to itself is answered; `get_msg_self` may also return
NULL, which `mdhimBGet` and `mdhimBDelete` follow. -/
def Clients.ret (c : Clients K S) (client : ℕ) : Option (Clients K S) :=
  match c.pc client with
  | .idle => none
  | .receiving n remote own =>
    if remote.all fun m => c.response client m.1 ≠ [] then
      let results := remote.flatMap fun m =>
        ((c.response client m.1).head?.map (numbered m.2)).getD []
      let c := { c with
        response := Function.update c.response client fun rank =>
          if rank ∈ remote.map Prod.fst then (c.response client rank).tail
          else c.response client rank }
      match own with
      | none => some (c.finish client n results)
      | some w =>
        some { c.queue client ⟨client, n, w⟩ with
          pc := Function.update c.pc client (.getMsgSelf n results w) }
    else none
  | .getMsgSelf n results w =>
    match c.receiveMsg client, w with
    | some reply, w =>
      some ({ c with receiveMsg := Function.update c.receiveMsg client none }.finish client n
        (results ++ numbered w reply))
    | none, .bget _ => none
    | none, .bdel _ => none
    | none, _ => some (c.finish client n results)

variable {ks}

def clientsStep (c : Clients K S) : ClientsLabel K → Option (Clients K S)
  | .call client op => c.call R client op
  | .arrive client rank => c.arrive client rank
  | .work rank => c.work ks append rank
  | .ret client => c.ret client

/-- In append mode no record of a bulk put is followed by another with its key, unless its value is
empty. -/
def ClientOp.Mild : ClientOp K → Prop
  | bput recs => append = true → RepeatsEmpty recs
  | _ => True

omit [LinearOrder S] in
/-- The messages of a call pack, or none does; and no wakeup in `get_msg_self` is without a response. -/
def Clients.Orderly (c : Clients K S) : ClientsLabel K → Prop
  | .call client op =>
    let remote := (op.messages ks (R.md client)).1
    op.Mild append ∧ ((∀ m ∈ remote, m.2.packs ks m.1 = true) ∨ ∀ m ∈ remote, m.2.packs ks m.1 = false)
  | .ret client =>
    ∀ n results w, c.pc client = .getMsgSelf n results w → c.receiveMsg client ≠ none
  | _ => True

omit [LinearOrder K] in
instance (op : ClientOp K) [DecidableEq K] : Decidable (op.Mild append) :=
  match op with
  | .one _ => .isTrue trivial
  | .bput recs => inferInstanceAs
    (Decidable (append = true → recs.Pairwise fun r r' => r.1 = r'.1 → r.2 = []))
  | .bget _ => .isTrue trivial
  | .bdelete _ => .isTrue trivial

instance (pc : BulkPc K) (p : Prop) [Decidable p] :
    Decidable (∀ n results w, pc = .getMsgSelf n results w → p) :=
  match pc with
  | .idle => .isTrue fun _ _ _ h => by cases h
  | .receiving _ _ _ => .isTrue fun _ _ _ h => by cases h
  | .getMsgSelf n results w => decidable_of_iff p ⟨fun h _ _ _ _ => h, fun h => h n results w rfl⟩

omit [LinearOrder S] in
instance (c : Clients K S) (a : ClientsLabel K) : Decidable (c.Orderly R append a) :=
  match a with
  | .call _ op => inferInstanceAs (Decidable (op.Mild append ∧ (_ ∨ _)))
  | .arrive _ _ => .isTrue trivial
  | .work _ => .isTrue trivial
  | .ret client => inferInstanceAs
    (Decidable (∀ n results w, c.pc client = .getMsgSelf n results w → c.receiveMsg client ≠ none))

end Steps

/-! ## What the messages hold -/

/-- A message to `rank` has requests of a call, for keys of this server. -/
structure MessageOf (ks : Keyspace K S) (append : Bool) (requests : List (Request K)) (rank : ℕ)
    (w : ServerWork K) : Prop where
  server : ∀ r ∈ w.requests, ks.server r.1.key = some rank
  sublist : w.requests.Sublist requests.zipIdx
  length_le : w.requests.length ≤ maxBulkOps
  mild : w.Mild append

/-- The messages of a call go to different ranks. -/
structure MessagesOf (ks : Keyspace K S) (append : Bool) (requests : List (Request K)) (client : ℕ)
    (ms : Messages K) : Prop where
  nodup : (ms.1.map Prod.fst).Nodup
  not_mem : client ∉ ms.1.map Prod.fst
  remote : ∀ m ∈ ms.1, MessageOf ks append requests m.1 m.2
  own : ∀ w ∈ ms.2, MessageOf ks append requests client w

section MessagesOf

variable {ks} {append : Bool} {R : Ranks ks} {client : ℕ}

theorem messagesOf_nil {requests : List (Request K)} :
    MessagesOf ks append requests client ([], none) where
  nodup := List.nodup_nil
  not_mem := List.not_mem_nil
  remote _ h := by cases h
  own _ h := by cases h

theorem messagesOf_single (message : Request K) : MessagesOf ks append [message] client
    (singleMessages (R.md client) (ks.bytes message.key) (.one message)) := by
  unfold singleMessages
  cases hri : getRangeServer (R.md client) (some (ks.bytes message.key)) with
  | none => exact messagesOf_nil
  | some ri =>
    have hserver : ks.server message.key = some ri.rank := by
      rw [← R.server client, hri]
      rfl
    have hmessage : MessageOf ks append [message] ri.rank (.one message) :=
      ⟨fun r hr => by
        obtain rfl := List.mem_singleton.mp hr
        exact hserver, List.Sublist.refl _, Nat.one_le_iff_ne_zero.mpr (by decide), trivial⟩
    dsimp only
    split_ifs with hown
    · refine ⟨List.nodup_nil, List.not_mem_nil, (fun _ h => by cases h), fun w hw => ?_⟩
      obtain rfl := Option.some.inj hw
      have hrank : client = ri.rank := (R.rank client).symm.trans hown.2
      rw [hrank]
      exact hmessage
    · refine ⟨List.nodup_singleton _, fun hmem => ?_, fun m hm => ?_, fun _ h => by cases h⟩
      · have hrank : client = ri.rank := List.mem_singleton.mp hmem
        exact hown ⟨R.imRangeServer client ri (mem_rangesrvs_of_getRangeServer hri) hrank.symm,
          (R.rank client).trans hrank⟩
      · obtain rfl := List.mem_singleton.mp hm
        exact hmessage

/-- The messages of a bulk call. -/
theorem messagesOf_bulk {T : Type} (request : T → Request K) (recs : List T)
    {work : List (T × ℕ) → ServerWork K}
    (hwork : ∀ l, (work l).requests = l.map fun r => (request r.1, r.2))
    (hmild : ∀ l, l.Sublist recs.zipIdx → (work l).Mild append) :
    MessagesOf ks append (recs.map request) client
      (bulkMessages (R.md client) (fun r => ks.bytes (request r).key) recs work) := by
  unfold bulkMessages
  split_ifs with hmax
  · exact messagesOf_nil
  have hok := R.ok client
  -- the records of a server are requests of the call, for its keys
  have hmessage : ∀ rank, MessageOf ks append (recs.map request) rank
      (work (recsTo (R.md client) (fun r : T × ℕ => ks.bytes (request r.1).key) recs.zipIdx rank)) := by
    intro rank
    have hsub : (recsTo (R.md client) (fun r : T × ℕ => ks.bytes (request r.1).key) recs.zipIdx
        rank).Sublist recs.zipIdx := List.filter_sublist
    refine ⟨fun r hr => ?_, ?_, ?_, hmild _ hsub⟩
    · rw [hwork] at hr
      obtain ⟨p, hp, rfl⟩ := List.mem_map.mp hr
      have hserver := (mem_recsTo.mp hp).2
      rw [R.server client] at hserver
      exact hserver
    · rw [hwork, List.zipIdx_map]
      exact hsub.map _
    · rw [hwork, List.length_map]
      have hlen := hsub.length_le
      rw [List.length_zipIdx] at hlen
      exact hlen.trans (not_lt.mp hmax)
  refine ⟨?_, ?_, ?_, ?_⟩
  · rw [List.map_map]
    exact nodup_bulkLists hok
  · rw [List.map_map, List.mem_map]
    rintro ⟨m, hm, hrank⟩
    exact ((mem_reduceOption_bulkLists hok).mp hm).1 (hrank.trans (R.rank client).symm)
  · intro m hm
    obtain ⟨b, hb, rfl⟩ := List.mem_map.mp hm
    dsimp only
    rw [((mem_reduceOption_bulkLists hok).mp hb).2.1]
    exact hmessage _
  · intro w hw
    obtain ⟨m, hm, rfl⟩ := Option.map_eq_some_iff.mp hw
    rw [own_bulkLists] at hm
    rw [(msgOf_eq_some.mp hm).2.1, R.rank client]
    exact hmessage _

/-- The messages of every call. -/
theorem messagesOf (op : ClientOp K) (hmild : op.Mild append) :
    MessagesOf ks append op.requests client (op.messages ks (R.md client)) := by
  cases op with
  | one message => exact messagesOf_single message
  | bput recs =>
    have hputs : ∀ l, l.Sublist recs.zipIdx → (ServerWork.bput l).Mild append := by
      intro l hl happ
      have hsub := hl.map Prod.fst
      rw [List.zipIdx_map_fst] at hsub
      exact (hmild happ).sublist hsub
    have h := @messagesOf_bulk _ _ ks append R client _ (fun r : K × Value => .put r.1 r.2) recs _
      (fun l => rfl) hputs
    exact ⟨h.nodup, h.not_mem, h.remote, fun w hw => h.own w (Option.eq_some_of_filter_eq_some hw)⟩
  | bget keys => exact messagesOf_bulk .get keys (fun _ => rfl) fun _ _ => trivial
  | bdelete keys => exact messagesOf_bulk .del keys (fun _ => rfl) fun _ _ => trivial

end MessagesOf

end MpiToShmem
