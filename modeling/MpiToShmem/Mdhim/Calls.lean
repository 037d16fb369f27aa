import MpiToShmem.Mdhim.Refinement
import MpiToShmem.Kit.Linearizable

/-!
# Calls of many clients

The clients run at the same time. Each makes its single-record calls one after the other: it sends the
request, which is a while on its way, or adds it to the work queue of its own range server, and waits
for the response. The workers of the servers take the requests in the order of their queues.

1. `callsStep` is a step of a client, of the network or of a worker. `record` has the calls and the
   returns, and between them when a request is handled.
2. `mapCall`: what a call does to one map, and what it returns.
-/

namespace MpiToShmem

open Kit

variable {K S : Type}

/-- Where a client is: between calls, in `receive_client_response` for a server, or in `get_msg_self`,
with the number of its call. -/
inductive CallPc where
  | idle
  | receiving (call rank : ℕ)
  | getMsgSelf (call : ℕ)
deriving DecidableEq

/-- `work_item`, with the number of the call, which no step looks at. -/
structure CallItem (K : Type) where
  source : ℕ
  call : ℕ
  message : Request K
deriving DecidableEq

/-- The range servers and their queues; the clients, with the number of their calls; the requests and
the responses on their way, by client, with the rank of the server; `receive_msg` of each rank. -/
structure Calls (K S : Type) [LinearOrder K] where
  server : ℕ → RangeServer K S
  workQueue : ℕ → List (CallItem K)
  pc : ℕ → CallPc
  calls : ℕ → ℕ
  sent : ℕ → Option (ℕ × CallItem K)
  response : ℕ → Option (ℕ × Reply K)
  receiveMsg : ℕ → Option (Reply K)
  record : List (Mark (ℕ × ℕ) (ℕ × Request K) (Option (Reply K)))

inductive CallsLabel (K : Type) where
  | call (client : ℕ) (message : Request K)
  | arrive (client : ℕ)
  | work (rank : ℕ)
  | ret (client : ℕ)
deriving DecidableEq

/-- The server that a client gets its request to: the one of the key, unless the message does not
pack. -/
def Request.dest (ks : Keyspace K S) (client : ℕ) (message : Request K) : Option ℕ :=
  (ks.server message.key).filter fun rank => client = rank ∨ message.packs ks rank

section Steps

variable [LinearOrder K]

/-- Servers over new databases, and clients that have not called yet. -/
def Calls.init : Calls K S :=
  ⟨fun _ => .init, fun _ => [], fun _ => .idle, fun _ => 0, fun _ => none, fun _ => none,
    fun _ => none, []⟩

/-- The worker adds an item to the queue of a server. -/
def Calls.queue (c : Calls K S) (rank : ℕ) (item : CallItem K) : Calls K S :=
  { c with workQueue := Function.update c.workQueue rank (c.workQueue rank ++ [item]) }

/-- The call of a client is over. -/
def Calls.finish (c : Calls K S) (client call : ℕ) (result : Option (Reply K)) : Calls K S :=
  { c with
    pc := Function.update c.pc client .idle
    record := c.record ++ [Mark.event (.ret (client, call) result)] }

/-- `mdhimPut`, `mdhimGet` or `mdhimDelete`, up to where it waits. -/
def Calls.call (ks : Keyspace K S) (c : Calls K S) (client : ℕ) (message : Request K) :
    Option (Calls K S) :=
  if c.pc client ≠ .idle then none
  else
    let item : CallItem K := ⟨client, c.calls client, message⟩
    let c := { c with
      calls := Function.update c.calls client (item.call + 1)
      record := c.record ++ [Mark.event (.call (client, item.call) (client, message))] }
    match message.dest ks client with
    | none =>
      -- the call returns NULL
      let c := { c with
        record := c.record ++ [Mark.effect ⟨(client, item.call), (client, message), none⟩] }
      some (c.finish client item.call none)
    | some rank =>
      if client = rank then
        some { c.queue rank item with pc := Function.update c.pc client (.getMsgSelf item.call) }
      else
        some { c with
          sent := Function.update c.sent client (some (rank, item))
          pc := Function.update c.pc client (.receiving item.call rank) }

/-- The listener of its server takes the request of a client. -/
def Calls.arrive (c : Calls K S) (client : ℕ) : Option (Calls K S) :=
  (c.sent client).map fun p => { c.queue p.1 p.2 with sent := Function.update c.sent client none }

/-- `send_locally_or_remote`. A response that does not pack is not sent. -/
def Calls.respond (ks : Keyspace K S) (c : Calls K S) (rank client : ℕ) (reply : Reply K) :
    Calls K S :=
  if client = rank then { c with receiveMsg := Function.update c.receiveMsg rank (some reply) }
  else if reply.packs ks rank then
    { c with response := Function.update c.response client (some (rank, reply)) }
  else c

variable [LinearOrder S] (ks : Keyspace K S) (append : Bool)

/-- The worker of `rank` handles the next request. -/
def Calls.work (c : Calls K S) (rank : ℕ) : Option (Calls K S) :=
  match c.workQueue rank with
  | [] => none
  | item :: items => do
    let (s, reply) ← handle ks append (c.server rank) item.message
    let c := { c with
      server := Function.update c.server rank s
      workQueue := Function.update c.workQueue rank items
      record := c.record ++
        [Mark.effect ⟨(item.source, item.call), (item.source, item.message), some reply⟩] }
    some (c.respond ks rank item.source reply)

omit [LinearOrder S] in
/-- A client has its response; in `get_msg_self` it may also wake up without one. -/
def Calls.ret (c : Calls K S) (client : ℕ) : Option (Calls K S) :=
  match c.pc client with
  | .idle => none
  | .receiving call rank =>
    match c.response client with
    | none => none
    | some (server, reply) =>
      if server = rank then
        some ({ c with response := Function.update c.response client none }.finish client call
          (some reply))
      else none
  | .getMsgSelf call =>
    some ({ c with receiveMsg := Function.update c.receiveMsg client none }.finish client call
      (c.receiveMsg client))

def callsStep (c : Calls K S) : CallsLabel K → Option (Calls K S)
  | .call client message => c.call ks client message
  | .arrive client => c.arrive client
  | .work rank => c.work ks append rank
  | .ret client => c.ret client

omit [LinearOrder S] in
/-- No wakeup in `get_msg_self` is without a response. -/
def Calls.OnTime (c : Calls K S) : CallsLabel K → Prop
  | .ret client => ∀ call, c.pc client = .getMsgSelf call → c.receiveMsg client ≠ none
  | _ => True

instance (pc : CallPc) (p : Prop) [Decidable p] : Decidable (∀ call, pc = .getMsgSelf call → p) :=
  match pc with
  | .idle => .isTrue fun _ h => by cases h
  | .receiving _ _ => .isTrue fun _ h => by cases h
  | .getMsgSelf call => decidable_of_iff p ⟨fun h _ _ => h, fun h => h call rfl⟩

omit [LinearOrder S] in
instance (c : Calls K S) (a : CallsLabel K) : Decidable (c.OnTime a) :=
  match a with
  | .call _ _ => .isTrue trivial
  | .arrive _ => .isTrue trivial
  | .work _ => .isTrue trivial
  | .ret client => inferInstanceAs
    (Decidable (∀ call, c.pc client = .getMsgSelf call → c.receiveMsg client ≠ none))

/-! ## What the steps do -/

omit [LinearOrder S] in
/-- A call begins. -/
def Calls.begin (c : Calls K S) (client : ℕ) (message : Request K) : Calls K S :=
  { c with
    calls := Function.update c.calls client (c.calls client + 1)
    record := c.record ++ [Mark.event (.call (client, c.calls client) (client, message))] }

variable {ks append} {c c' : Calls K S} {client rank : ℕ} {message : Request K}

omit [LinearOrder S] in
/-- The three ways of a call: it returns NULL, it adds its request to the queue of its own range server,
or it sends it. -/
theorem Calls.call_cases (h : c.call ks client message = some c') :
    c.pc client = .idle ∧
      (message.dest ks client = none ∧
          c' = ({ c.begin client message with
            record := (c.begin client message).record ++
              [Mark.effect ⟨(client, c.calls client), (client, message), none⟩] }.finish client
                (c.calls client) none) ∨
        message.dest ks client = some client ∧
          c' = { (c.begin client message).queue client ⟨client, c.calls client, message⟩ with
            pc := Function.update c.pc client (.getMsgSelf (c.calls client)) } ∨
        ∃ rank, message.dest ks client = some rank ∧ client ≠ rank ∧
          c' = { c.begin client message with
            sent := Function.update c.sent client (some (rank, ⟨client, c.calls client, message⟩))
            pc := Function.update c.pc client (.receiving (c.calls client) rank) }) := by
  unfold Calls.call at h
  split_ifs at h with hidle
  refine ⟨not_not.mp hidle, ?_⟩
  dsimp only at h
  cases hdest : message.dest ks client with
  | none =>
    rw [hdest] at h
    exact .inl ⟨rfl, (Option.some.inj h).symm⟩
  | some rank =>
    rw [hdest] at h
    dsimp only at h
    split_ifs at h with hr
    · subst hr
      exact .inr (.inl ⟨rfl, (Option.some.inj h).symm⟩)
    · exact .inr (.inr ⟨rank, rfl, hr, (Option.some.inj h).symm⟩)

theorem Calls.work_eq_some : c.work ks append rank = some c' ↔
    ∃ item items s reply, c.workQueue rank = item :: items ∧
      handle ks append (c.server rank) item.message = some (s, reply) ∧
      c' = { c with
        server := Function.update c.server rank s
        workQueue := Function.update c.workQueue rank items
        record := c.record ++ [Mark.effect
          ⟨(item.source, item.call), (item.source, item.message), some reply⟩] }.respond ks rank
            item.source reply := by
  unfold Calls.work
  cases c.workQueue rank with
  | nil => simp
  | cons item items =>
    simp only [Option.bind_eq_bind, Option.bind_eq_some_iff, Prod.exists, List.cons.injEq]
    constructor
    · rintro ⟨s, reply, hh, hc⟩
      exact ⟨item, items, s, reply, ⟨rfl, rfl⟩, hh, (Option.some.inj hc).symm⟩
    · rintro ⟨_, _, s, reply, ⟨rfl, rfl⟩, hh, rfl⟩
      exact ⟨s, reply, hh, rfl⟩

omit [LinearOrder S] in
theorem Calls.ret_eq_some : c.ret client = some c' ↔
    (∃ call rank reply, c.pc client = .receiving call rank ∧
        c.response client = some (rank, reply) ∧
        c' = { c with response := Function.update c.response client none }.finish client call
          (some reply)) ∨
      ∃ call, c.pc client = .getMsgSelf call ∧
        c' = { c with receiveMsg := Function.update c.receiveMsg client none }.finish client call
          (c.receiveMsg client) := by
  unfold Calls.ret
  cases c.pc client with
  | idle => simp
  | receiving call rank =>
    cases c.response client with
    | none => simp
    | some p =>
      obtain ⟨server, reply⟩ := p
      dsimp only
      split_ifs with hr
      · subst hr
        simp [eq_comm]
      · simp [hr]
  | getMsgSelf call => simp [eq_comm]

end Steps

/-! ## One map -/

/-- The reply to a get; an empty value is a missing one. -/
def getReply (key : K) : Option Value → GetReply K
  | none => ⟨mdhimDbError, some key, none⟩
  | some v => if v = [] then ⟨mdhimDbError, some key, none⟩ else ⟨mdhimSuccess, some key, some v⟩

/-- What is returned from a map. -/
def mapReply (m : K → Option Value) : Request K → Reply K
  | .put _ _ => .rm mdhimSuccess
  | .del _ => .rm mdhimSuccess
  | .get key => .getrm (getReply key (m key))

/-- A call on the map. Without a server for its key, or when its message does not pack, it does
nothing. -/
def mapCall [DecidableEq K] (ks : Keyspace K S) (append : Bool) (m : K → Option Value)
    (op : ℕ × Request K) : (K → Option Value) × Option (Reply K) :=
  match op.2.dest ks op.1 with
  | none => (m, none)
  | some _ => (mapNext append m op.2, some (mapReply m op.2))

theorem mapReply_congr {m m' : K → Option Value} {message : Request K}
    (h : m message.key = m' message.key) : mapReply m message = mapReply m' message := by
  cases message with
  | put key value => rfl
  | del key => rfl
  | get key =>
    simp only [Request.key] at h
    simp only [mapReply, h]

theorem handle_reply [LinearOrder K] [LinearOrder S] {ks : Keyspace K S} {append : Bool}
    {s s' : RangeServer K S} {message : Request K} {reply : Reply K}
    (h : handle ks append s message = some (s', reply)) : reply = mapReply s.db.get message := by
  cases message with
  | put key value =>
    obtain ⟨⟨t, error⟩, ht, he⟩ := Option.map_eq_some_iff.mp h
    obtain ⟨-, rfl⟩ := Prod.mk.inj he
    rcases rangeServerPut_cases ht with ⟨hp, -⟩ | ⟨-, herror, -⟩
    · cases hp
    · exact congrArg Reply.rm herror
  | del key =>
    obtain ⟨-, rfl⟩ := Prod.mk.inj (Option.some.inj h)
    rfl
  | get key =>
    obtain ⟨-, rfl⟩ := Prod.mk.inj (Option.some.inj h)
    refine congrArg Reply.getrm ?_
    cases hget : s.db.get key with
    | none => exact rangeServerGet_eq_none hget
    | some v =>
      by_cases hv : v = []
      · subst hv
        simp [rangeServerGet, leveldbGet, hget, getReply]
      · rw [rangeServerGet_eq_some hget hv, getReply, if_neg hv]

end MpiToShmem
