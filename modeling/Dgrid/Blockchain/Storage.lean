import Dgrid.Go.Bytes
import Dgrid.Go.ContainerList
import Dgrid.Clist.CList

/-! `core/blockchain/storage/storage.go`: the mempool. Accepted transactions sit in a `CList`,
with a map from their hash to their element and a running count of their bytes; a bounded LRU
cache of hashes turns away transactions seen recently. The application checks a transaction
asynchronously: `CheckTx` queues the request, and the response, delivered in request order,
adds the transaction. `Update` with a committed block removes its transactions and, with
`Recheck`, sends the rest to be checked again; each recheck response walks a cursor along the
list. `sha256.Sum256` is the parameter `txKey`. The write-ahead log, the logger, the metrics and
the senders of each transaction, which only the gossip reactor reads, are left out. -/

namespace Dgrid.Blockchain
open Go Dgrid.Clist

def CodeTypeOK : UInt32 := 0

/-- `asura.ResponseCheckTx`, as far as the mempool reads it. -/
structure ResponseCheckTx where
  Code : UInt32
  GasWanted : Int
deriving DecidableEq, Repr

/-- `asura.Response`: a `CheckTx` response, or one of another kind. -/
inductive Response where
  | checkTx (r : ResponseCheckTx)
  | other
deriving DecidableEq, Repr

/-- A request of the mempool still waiting for its response: a first check, whose response
goes to `reqResCb` and then `globalCb`, or a recheck, whose response goes to `globalCb`. -/
inductive Request where
  | checkTx (tx : Bytes)
  | recheckTx (tx : Bytes)
deriving DecidableEq, Repr

def Request.tx : Request → Bytes
  | .checkTx tx => tx
  | .recheckTx tx => tx

/-- `cfg.StorageConfig`, as far as the mempool reads it. -/
structure StorageConfig where
  Size : Int
  MaxTxsBytes : Int
  CacheSize : Int
  Recheck : Bool
deriving DecidableEq, Repr

def maxTxSize : Int := 1048576 - 8

/-- `PostCheckMaxGas(maxGas)`: the `postCheck` that turns away a transaction whose application
asks for negative gas or for more than `maxGas`, unless `maxGas` is `-1`. -/
def PostCheckMaxGas (maxGas : Int) (_tx : Bytes) (res : ResponseCheckTx) : Option String :=
  if maxGas = -1 then none
  else if res.GasWanted < 0 then some ("gas wanted " ++ toString res.GasWanted ++ " is negative")
  else if res.GasWanted > maxGas then
    some ("gas wanted " ++ toString res.GasWanted ++ " is greater than max gas " ++ toString maxGas)
  else none

/-- `storageTx`, without its senders. -/
structure storageTx where
  height : Int
  gasWanted : Int
  tx : Bytes
deriving DecidableEq, Repr

variable {κ : Type} [DecidableEq κ] (txKey : Bytes → κ)

/-- `mapTxCache`: a map from hashes to the elements of a list of hashes, oldest first. -/
structure mapTxCache (κ : Type) where
  size : Int
  map_ : κ → Option Nat
  list : GoList κ

namespace mapTxCache

def newMapTxCache (cacheSize : Int) : mapTxCache κ := ⟨cacheSize, fun _ => none, GoList.New⟩

def Reset (cache : mapTxCache κ) : mapTxCache κ :=
  { cache with map_ := fun _ => none, list := cache.list.Init }

/-- `cache.Push(tx)`: false when the hash is present, which then becomes the most recent;
otherwise the oldest hash makes room when the cache is full. -/
def Push (cache : mapTxCache κ) (tx : Bytes) : Result (Bool × mapTxCache κ) :=
  let txHash := txKey tx
  match cache.map_ txHash with
  | some moved => .ok (false, { cache with list := cache.list.MoveToBack moved })
  | none => do
      let cache ← if (cache.list.Len : Int) ≥ cache.size then
          match cache.list.Front with
          | none => .panic "invalid memory address or nil pointer dereference"
          | some (popped, poppedTxHash) =>
              .ok { cache with map_ := Function.update cache.map_ poppedTxHash none,
                               list := cache.list.Remove popped }
        else .ok cache
      let (e, list) := cache.list.PushBack txHash
      pure (true, { cache with map_ := Function.update cache.map_ txHash (some e), list })

def Remove (cache : mapTxCache κ) (tx : Bytes) : mapTxCache κ :=
  let txHash := txKey tx
  let popped := cache.map_ txHash
  let cache := { cache with map_ := Function.update cache.map_ txHash none }
  match popped with
  | some e => { cache with list := cache.list.Remove e }
  | none => cache

end mapTxCache

/-- `txCache`: the LRU cache, or `nopTxCache` when `CacheSize` is not positive. -/
inductive txCache (κ : Type) where
  | mapTxCache (cache : mapTxCache κ)
  | nopTxCache

namespace txCache

def Reset : txCache κ → txCache κ
  | .mapTxCache cache => .mapTxCache cache.Reset
  | .nopTxCache => .nopTxCache

def Push : txCache κ → Bytes → Result (Bool × txCache κ)
  | .mapTxCache cache, tx => do
      let (pushed, cache) ← cache.Push txKey tx
      pure (pushed, .mapTxCache cache)
  | .nopTxCache, _ => .ok (true, .nopTxCache)

def Remove : txCache κ → Bytes → txCache κ
  | .mapTxCache cache, tx => .mapTxCache (cache.Remove txKey tx)
  | .nopTxCache, _ => .nopTxCache

end txCache

/-- `storage.Storage`. The connection to the application is the list `proxyAppConn` of the
requests still waiting for their response, oldest first. `txsAvailable` is the channel of
`EnableTxsAvailable`, if made, as whether its one buffered slot is full. -/
structure Storage (κ : Type) where
  config : StorageConfig
  proxyAppConn : List Request
  txs : CList storageTx
  preCheck : Option (Bytes → Option String)
  postCheck : Option (Bytes → ResponseCheckTx → Option String)
  recheckCursor : Option Nat
  recheckEnd : Option Nat
  notifiedTxsAvailable : Bool
  txsAvailable : Option Bool
  txsMap : κ → Option Nat
  height : Int
  rechecking : Int
  txsBytes : Int
  cache : txCache κ

/-- A `StorageOption` of `NewStorage`: `WithPreCheck(f)` or `WithPostCheck(f)`, a nil `f` being
`none`. `WithMetrics` only sets the metrics. -/
inductive StorageOption where
  | WithPreCheck (f : Option (Bytes → Option String))
  | WithPostCheck (f : Option (Bytes → ResponseCheckTx → Option String))

def StorageOption.apply (mem : Storage κ) : StorageOption → Storage κ
  | .WithPreCheck f => { mem with preCheck := f }
  | .WithPostCheck f => { mem with postCheck := f }

def NewStorage (config : StorageConfig) (height : Int) (options : List StorageOption) :
    Storage κ :=
  let storage : Storage κ :=
    { config := config
      proxyAppConn := []
      txs := CList.New
      preCheck := none
      postCheck := none
      recheckCursor := none
      recheckEnd := none
      notifiedTxsAvailable := false
      txsAvailable := none
      txsMap := fun _ => none
      height := height
      rechecking := 0
      txsBytes := 0
      cache := if config.CacheSize > 0 then .mapTxCache (mapTxCache.newMapTxCache config.CacheSize)
        else .nopTxCache }
  options.foldl StorageOption.apply storage

/-- The errors `CheckTx` returns. -/
inductive CheckTxError where
  /-- `ErrStorageIsFull{numTxs, maxTxs, txsBytes, maxTxsBytes}` -/
  | storageIsFull (numTxs maxTxs txsBytes maxTxsBytes : Int)
  /-- `ErrTxTooLarge` -/
  | txTooLarge
  /-- `ErrPreCheck{reason}` -/
  | preCheck (reason : String)
  /-- `ErrTxInCache` -/
  | txInCache
  /-- the error of `proxyAppConn.Error()` -/
  | appConn (err : String)
deriving DecidableEq, Repr

namespace Storage

variable (mem : Storage κ)

def Size : Int := mem.txs.Len

def TxsBytes : Int := mem.txsBytes

def EnableTxsAvailable : Storage κ := { mem with txsAvailable := some false }

def Flush : Result (Storage κ) := do
  let cache := mem.cache.Reset
  let txs ← CList.forEach id (fun e txs => do
      let (_, txs) ← txs.Remove e
      txs.DetachPrev e) mem.txs.elems.length mem.txs.Front mem.txs
  pure { mem with cache, txs, txsMap := fun _ => none, txsBytes := 0 }

/-- `mem.CheckTxWithInfo(tx, cb, txInfo)`, where `connErr` is what `proxyAppConn.Error()`
returns. The peer of `txInfo` is only recorded among the senders, so `CheckTx` is this call. -/
def CheckTxWithInfo (tx : Bytes) (connErr : Option String) :
    Result (Except CheckTxError Unit × Storage κ) :=
  let memSize := mem.Size
  let txsBytes := mem.TxsBytes
  if memSize ≥ mem.config.Size ∨ wrap64 (tx.length + txsBytes) > mem.config.MaxTxsBytes then
    .ok (.error (.storageIsFull memSize mem.config.Size txsBytes mem.config.MaxTxsBytes), mem)
  else if (tx.length : Int) > maxTxSize then .ok (.error .txTooLarge, mem)
  else match mem.preCheck.bind (· tx) with
    | some err => .ok (.error (.preCheck err), mem)
    | none => do
        let (pushed, cache) ← mem.cache.Push txKey tx
        let mem := { mem with cache }
        if !pushed then pure (.error .txInCache, mem)
        else match connErr with
          | some err => pure (.error (.appConn err), mem)
          | none => pure (.ok (), { mem with proxyAppConn := mem.proxyAppConn ++ [.checkTx tx] })

/-- `mem.notifyTxsAvailable()`: the channel gets a value once per height. -/
def notifyTxsAvailable : Result (Storage κ) :=
  if mem.Size = 0 then .panic "notified txs available but storage is empty!"
  else if mem.txsAvailable.isSome ∧ !mem.notifiedTxsAvailable then
    .ok { mem with notifiedTxsAvailable := true, txsAvailable := some true }
  else .ok mem

def addTx (memTx : storageTx) : Result (Storage κ) := do
  let (e, txs) ← mem.txs.PushBack memTx
  pure { mem with txs, txsMap := Function.update mem.txsMap (txKey memTx.tx) (some e),
                  txsBytes := wrap64 (mem.txsBytes + memTx.tx.length) }

def removeTx (tx : Bytes) (elem : Nat) (removeFromCache : Bool) : Result (Storage κ) := do
  let (_, txs) ← mem.txs.Remove elem
  let txs ← txs.DetachPrev elem
  let mem := { mem with txs, txsMap := Function.update mem.txsMap (txKey tx) none,
                        txsBytes := wrap64 (mem.txsBytes - tx.length) }
  pure (if removeFromCache then { mem with cache := mem.cache.Remove txKey tx } else mem)

/-- The error of `mem.postCheck(tx, r)`, none when there is no `postCheck`. -/
def postCheckErr (tx : Bytes) (r : ResponseCheckTx) : Option String :=
  mem.postCheck.bind fun f => f tx r

def resCbFirstTime (tx : Bytes) (res : Response) : Result (Storage κ) :=
  match res with
  | .checkTx r =>
      if r.Code = CodeTypeOK ∧ mem.postCheckErr tx r = none then do
        let mem ← mem.addTx txKey ⟨mem.height, r.GasWanted, tx⟩
        mem.notifyTxsAvailable
      else .ok { mem with cache := mem.cache.Remove txKey tx }
  | .other => .ok mem

/-- `mem.resCbRecheck(req, res)`: the response to the recheck of the element under the
cursor, which then moves on. -/
def resCbRecheck (tx : Bytes) (res : Response) : Result (Storage κ) :=
  match res with
  | .checkTx r =>
      match mem.recheckCursor with
      | none => .panic "invalid memory address or nil pointer dereference"
      | some cursor => do
          let memTx ← mem.txs.Value cursor
          if tx ≠ memTx.tx then .panic "Unexpected tx response from proxy during recheck"
          else do
            let mem ← (if r.Code = CodeTypeOK ∧ mem.postCheckErr tx r = none then pure mem
              else mem.removeTx txKey tx cursor true)
            let next ← (if mem.recheckCursor = mem.recheckEnd then pure none
              else mem.txs.Next cursor)
            let mem := { mem with recheckCursor := next }
            if next.isNone then
              let mem := { mem with rechecking := 0 }
              if mem.Size > 0 then mem.notifyTxsAvailable else pure mem
            else pure mem
  | .other => .ok mem

/-- `mem.globalCb(req, res)`, called on every response. -/
def globalCb (req : Request) (res : Response) : Result (Storage κ) :=
  if mem.recheckCursor.isNone then .ok mem else mem.resCbRecheck txKey req.tx res

/-- The callback `mem.reqResCb(tx, peerID, externalCb)` of a first check. -/
def reqResCb (tx : Bytes) (res : Response) : Result (Storage κ) :=
  if mem.recheckCursor.isSome then .panic "recheck cursor is not nil in reqResCb"
  else mem.resCbFirstTime txKey tx res

/-- The application's response to the oldest waiting request, as the socket client hands it
over: to the request's own callback, then to the global one. -/
def didRecvResponse (res : Response) : Result (Storage κ) :=
  match mem.proxyAppConn with
  | [] => .panic "unexpected response"
  | req :: rest =>
      let mem := { mem with proxyAppConn := rest }
      match req with
      | .checkTx tx => do
          let mem ← mem.reqResCb txKey tx res
          mem.globalCb txKey req res
      | .recheckTx _ => mem.globalCb txKey req res

end Storage

/-- The body of the loop of `mem.removeTxs(txs)` at the element `e`, with the transactions
left so far. -/
def removeTxsBody (txs : List Bytes) (e : Nat) :
    List Bytes × Storage κ → Result (List Bytes × Storage κ)
  | (txsLeft, mem) => do
      let memTx ← mem.txs.Value e
      if memTx.tx ∈ txs then do
        let mem ← mem.removeTx txKey memTx.tx e false
        pure (txsLeft, mem)
      else pure (txsLeft ++ [memTx.tx], mem)

namespace Storage

variable (mem : Storage κ)

/-- `mem.removeTxs(txs)`: the transactions left in the list, and the storage. -/
def removeTxs (txs : List Bytes) : Result (List Bytes × Storage κ) :=
  CList.forEach (·.2.txs) (removeTxsBody txKey txs) mem.txs.elems.length mem.txs.Front ([], mem)

def recheckTxs (txs : List Bytes) : Storage κ :=
  if txs = [] then mem
  else { mem with rechecking := 1, recheckCursor := mem.txs.Front, recheckEnd := mem.txs.Back,
                  proxyAppConn := mem.proxyAppConn ++ txs.map .recheckTx }

def Update (height : Int) (txs : List Bytes) (preCheck : Option (Bytes → Option String))
    (postCheck : Option (Bytes → ResponseCheckTx → Option String)) : Result (Storage κ) := do
  let mem := { mem with height, notifiedTxsAvailable := false,
                        preCheck := preCheck.or mem.preCheck, postCheck := postCheck.or mem.postCheck }
  let mem ← txs.foldlM (fun (mem : Storage κ) tx => do
      let (_, cache) ← mem.cache.Push txKey tx
      pure { mem with cache }) mem
  let (txsLeft, mem) ← mem.removeTxs txKey txs
  if txsLeft ≠ [] then
    if mem.config.Recheck then pure (mem.recheckTxs txsLeft) else mem.notifyTxsAvailable
  else pure mem

/-- The loop of `mem.ReapMaxTxs(max)`, which goes on while at most `max` are taken. -/
def reapMaxTxsLoop (max : Int) : Nat → Option Nat → List Bytes → Result (List Bytes)
  | _, none, txs => .ok txs
  | 0, some _, _ => .panic "the walk outlasts the heap"
  | fuel + 1, some e, txs =>
      if (txs.length : Int) ≤ max then do
        let memTx ← mem.txs.Value e
        let next ← mem.txs.Next e
        reapMaxTxsLoop max fuel next (txs ++ [memTx.tx])
      else .ok txs

/-- `mem.ReapMaxTxs(max)`, once no recheck is running. -/
def ReapMaxTxs (max : Int) : Result (List Bytes) :=
  let max := if max < 0 then mem.txs.Len else max
  mem.reapMaxTxsLoop max mem.txs.elems.length mem.txs.Front []

end Storage

/-- `amino.UvarintSize(u)`: the bytes `binary.PutUvarint` writes, seven bits each. -/
def UvarintSize (u : Nat) : Nat :=
  if u < 128 then 1 else UvarintSize (u / 128) + 1

/-- `types.ComputeAminoOverhead(tx, fieldNum)`: the key and the length prefix of a
length-delimited field. -/
def ComputeAminoOverhead (tx : Bytes) (fieldNum : Nat) : Int :=
  UvarintSize (fieldNum <<< 3 ||| 2) + UvarintSize tx.length

namespace Storage

variable (mem : Storage κ)

/-- The loop of `mem.ReapMaxBytesMaxGas(maxBytes, maxGas)`, with the running totals. -/
def reapMaxBytesMaxGasLoop (maxBytes maxGas : Int) :
    Nat → Option Nat → Int → Int → List Bytes → Result (List Bytes)
  | _, none, _, _, txs => .ok txs
  | 0, some _, _, _, _ => .panic "the walk outlasts the heap"
  | fuel + 1, some e, totalBytes, totalGas, txs => do
      let memTx ← mem.txs.Value e
      let aminoOverhead := ComputeAminoOverhead memTx.tx 1
      if maxBytes > -1 ∧ wrap64 (wrap64 (totalBytes + memTx.tx.length) + aminoOverhead) > maxBytes then
        .ok txs
      else
        let totalBytes := wrap64 (totalBytes + wrap64 (memTx.tx.length + aminoOverhead))
        let newTotalGas := wrap64 (totalGas + memTx.gasWanted)
        if maxGas > -1 ∧ newTotalGas > maxGas then .ok txs
        else do
          let next ← mem.txs.Next e
          reapMaxBytesMaxGasLoop maxBytes maxGas fuel next totalBytes newTotalGas (txs ++ [memTx.tx])

/-- `mem.ReapMaxBytesMaxGas(maxBytes, maxGas)`, once no recheck is running. -/
def ReapMaxBytesMaxGas (maxBytes maxGas : Int) : Result (List Bytes) :=
  mem.reapMaxBytesMaxGasLoop maxBytes maxGas mem.txs.elems.length mem.txs.Front 0 0 []

end Storage

end Dgrid.Blockchain
