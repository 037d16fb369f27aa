import MpiToShmem.Mdhim.IntKeys
import MpiToShmem.Mdhim.Messages
import MpiToShmem.Mdhim.RangeServer

/-!
# Single-record requests and the range servers

`mdhimPut`, `mdhimDelete` and `mdhimGet` with `MDHIM_GET_EQ` send a request to the range server of
its key, which queues it with those of the other clients; the worker thread of the server handles
the requests in the order of the queue and replies.

A step of the cluster is a request that reaches the queue of its server or a request that a worker
handles. `history` records what the workers handled. LevelDB calls do not fail here; a concatenation
whose length leaves `int` is undefined behaviour, and has no step.
-/

namespace MpiToShmem

open Kit

/-- Keys as the clients and the servers see them: their bytes, their place in the statistics, and
the rank of the server that `get_range_server` finds on every rank. -/
structure Keyspace (K S : Type) extends Keying K S where
  bytes : K → List UInt8
  server : K → Option ℕ
  length_bytes : ∀ k, (bytes k).length ≤ maxKeyLen

/-! ## Requests and replies -/

/-- What a client asks for. -/
inductive Request (K : Type) where
  | put (key : K) (value : Value)
  | del (key : K)
  | get (key : K)
deriving DecidableEq

def Request.key {K : Type} : Request K → K
  | put key _ => key
  | del key => key
  | get key => key

/-- What a server answers. -/
inductive Reply (K : Type) where
  | rm (error : ℤ)
  | getrm (grm : GetReply K)
deriving DecidableEq

variable {K S : Type} (ks : Keyspace K S)

/-- The message of a request to `rank` packs. -/
def Request.packs (rank : ℕ) : Request K → Bool
  | put key value => (packPutMessage ⟨1, rank, 0, ks.bytes key, value⟩).isSome
  | del key => (packDelMessage ⟨5, rank, 0, ks.bytes key⟩).isSome
  | get key => (packGetMessage ⟨3, rank, 0, 0, ks.bytes key, 1⟩).isSome

/-- The message of a reply of `rank` packs. -/
def Reply.packs (rank : ℕ) : Reply K → Bool
  | rm error => (packReturnMessage ⟨8, rank, 0, error⟩).isSome
  | getrm grm =>
    (packGetrmMessage ⟨9, rank, 0, grm.error, (grm.key.map ks.bytes).getD [],
      grm.value.getD []⟩).isSome

/-! ## The cluster -/

/-- `work_item`. -/
structure WorkItem (K : Type) where
  source : ℕ
  message : Request K
deriving DecidableEq

/-- A handled request; `none` is a reply that never reaches its client. -/
structure Handled (K : Type) where
  server : ℕ
  source : ℕ
  message : Request K
  reply : Option (Reply K)
deriving DecidableEq

variable [LinearOrder K] [LinearOrder S]

/-- The range servers by rank, their work queues, and what they handled. -/
structure Cluster (K S : Type) [LinearOrder K] where
  server : ℕ → RangeServer K S
  workQueue : ℕ → List (WorkItem K)
  history : List (Handled K)

/-- Servers over new databases. -/
def Cluster.init : Cluster K S := ⟨fun _ => .init, fun _ => [], []⟩

inductive ClusterLabel (K : Type) where
  | request (client : ℕ) (message : Request K)
  | work (rank : ℕ)

variable (append : Bool)

/-- The handlers of the three messages. -/
def handle (s : RangeServer K S) : Request K → Option (RangeServer K S × Reply K)
  | .put key value =>
    (rangeServerPut ks.toKeying append .ok s key value).map fun r => (r.1, .rm r.2)
  | .del key => some ((rangeServerDel .ok s key).1, .rm (rangeServerDel .ok s key).2)
  | .get key => some (s, .getrm (rangeServerGet true s (.eq key)))

/-- The client side: without a server for the key, or when the message does not pack, the call
returns NULL. A client that is the server of the key queues its message itself. -/
def Cluster.request (c : Cluster K S) (client : ℕ) (message : Request K) : Cluster K S :=
  match ks.server message.key with
  | none => c
  | some rank =>
    if client = rank ∨ message.packs ks rank then
      { c with workQueue :=
          Function.update c.workQueue rank (c.workQueue rank ++ [⟨client, message⟩]) }
    else c

/-- The worker of `rank` handles the next request and replies, through `receive_msg` if the client
is its own rank. -/
def Cluster.work (c : Cluster K S) (rank : ℕ) : Option (Cluster K S) :=
  match c.workQueue rank with
  | [] => none
  | item :: items => do
    let (s, reply) ← handle ks append (c.server rank) item.message
    let sent := if item.source = rank ∨ reply.packs ks rank then some reply else none
    return {
      server := Function.update c.server rank s
      workQueue := Function.update c.workQueue rank items
      history := c.history ++ [⟨rank, item.source, item.message, sent⟩] }

/-- One step. -/
def clusterStep (c : Cluster K S) : ClusterLabel K → Option (Cluster K S)
  | .request client message => some (c.request ks client message)
  | .work rank => c.work ks append rank

/-! ## What the steps do -/

variable {ks append} {c c' : Cluster K S} {rank : ℕ}

/-- Handling the next request of a queue. -/
theorem Cluster.work_eq_some : c.work ks append rank = some c' ↔
    ∃ item items s reply, c.workQueue rank = item :: items ∧
      handle ks append (c.server rank) item.message = some (s, reply) ∧
      c' = {
        server := Function.update c.server rank s
        workQueue := Function.update c.workQueue rank items
        history := c.history ++ [⟨rank, item.source, item.message,
          if item.source = rank ∨ reply.packs ks rank then some reply else none⟩] } := by
  unfold Cluster.work
  cases c.workQueue rank with
  | nil => simp
  | cons item items =>
    simp only [Option.bind_eq_bind, Option.bind_eq_some_iff, Prod.exists, List.cons.injEq]
    constructor
    · rintro ⟨s, reply, hh, hc⟩
      exact ⟨item, items, s, reply, ⟨rfl, rfl⟩, hh, (Option.some.inj hc).symm⟩
    · rintro ⟨_, _, s, reply, ⟨rfl, rfl⟩, hh, rfl⟩
      exact ⟨s, reply, hh, rfl⟩

omit [LinearOrder S] in
/-- A request joins at most the queue of its server. -/
theorem Cluster.mem_workQueue_request {client r : ℕ} {message : Request K} {item : WorkItem K}
    (h : item ∈ (c.request ks client message).workQueue r) :
    item ∈ c.workQueue r ∨ ks.server item.message.key = some r := by
  unfold Cluster.request at h
  cases hs : ks.server message.key with
  | none =>
    rw [hs] at h
    exact Or.inl h
  | some rank =>
    rw [hs] at h
    dsimp only at h
    split_ifs at h
    · dsimp only at h
      by_cases hr : r = rank
      · subst hr
        rw [Function.update_self, List.mem_append, List.mem_singleton] at h
        rcases h with h | rfl
        · exact Or.inl h
        · exact Or.inr hs
      · rw [Function.update_of_ne hr] at h
        exact Or.inl h
    · exact Or.inl h

omit [LinearOrder S] in
theorem Cluster.server_request (client : ℕ) (message : Request K) :
    (c.request ks client message).server = c.server := by
  unfold Cluster.request
  cases ks.server message.key with
  | none => rfl
  | some rank => dsimp only; split_ifs <;> rfl

omit [LinearOrder S] in
theorem Cluster.history_request (client : ℕ) (message : Request K) :
    (c.request ks client message).history = c.history := by
  unfold Cluster.request
  cases ks.server message.key with
  | none => rfl
  | some rank => dsimp only; split_ifs <;> rfl

/-! ## Integer keys -/

/-- The keyspace of integer keys, with the servers that rank `md.mdhimRank` finds. -/
def intKeyspace {o : IntOptions} (md : Mdhim) : Keyspace (IntKey o) ℕ where
  toKeying := intKeying o
  bytes := keyBytes
  server k := (getRangeServer md (some (keyBytes k))).map RangesrvInfo.rank
  length_bytes k := by
    rw [length_keyBytes]
    unfold IntOptions.keyWidth maxKeyLen
    split_ifs <;> omega

end MpiToShmem
