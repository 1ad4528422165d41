import Dgrid.P2p.NetAddress
import Dgrid.Lib.GoMap
import Dgrid.Lib.Float64

/-! `p2p/pex`'s address book. A known address is an object on the heap: the lookup map points
to it under its ID, and each bucket it is in points to it under its text `ID@host:port`. The
model keeps the heap as a function from pointers to `knownAddress` values with a next free
pointer, so that a write through one reference is seen through all of them, as in Go, and an
object that no map points to any more is simply never read again. What a call reads besides the
book, the clock, the runtime's map iteration orders and the random numbers, is its `Env`. -/

namespace Dgrid.Pex
open Go GoMap P2p

/-- A pointer to a `knownAddress`. -/
abbrev Ptr := Nat

def bucketTypeNew : UInt8 := 0x01

def bucketTypeOld : UInt8 := 0x02

/-- `oldBucketSize`, the most addresses an old bucket is meant to hold. -/
def oldBucketSize : Nat := 64

def oldBucketCount : Nat := 64

/-- `newBucketSize`, the most addresses a new bucket is meant to hold. -/
def newBucketSize : Nat := 64

def newBucketCount : Nat := 256

def oldBucketsPerGroup : Nat := 4

def newBucketsPerGroup : Nat := 32

def maxNewBucketsPerAddress : Nat := 4

def numMissingDays : Int := 7

def numRetries : Int32 := 3

def maxFailures : Int32 := 10

def minBadDays : Int := 7

def getSelectionPercent : Int := 23

def minGetSelection : Int := 32

def maxGetSelection : Int := 250

def needAddressThreshold : Int := 1000

/-- A `time.Time`, in nanoseconds from the Unix epoch. -/
abbrev Time := Int

/-- The zero `time.Time`, January 1 of year 1. -/
def zeroTime : Time := -62135596800 * 1000000000

def Minute : Int := 60 * 1000000000

def Hour : Int := 60 * Minute

/-- The text of a nil-pointer dereference. -/
def nilDeref : String := "invalid memory address or nil pointer dereference"

/-- `knownAddress`. -/
structure knownAddress where
  Addr : NetAddress
  Src : NetAddress
  Attempts : Int32
  LastAttempt : Time
  LastSuccess : Time
  BucketType : UInt8
  Buckets : List Int
deriving DecidableEq, Repr, Inhabited

/-- `newKnownAddress(addr, src)`, made at `now`. -/
def newKnownAddress (addr src : NetAddress) (now : Time) : knownAddress :=
  ⟨addr, src, 0, now, zeroTime, bucketTypeNew, []⟩

namespace knownAddress

variable (ka : knownAddress)

def ID : Bytes := ka.Addr.ID

def isOld : Bool := ka.BucketType = bucketTypeOld

def isNew : Bool := ka.BucketType = bucketTypeNew

/-- `ka.markAttempt()` at `now`. -/
def markAttempt (now : Time) : knownAddress :=
  { ka with LastAttempt := now, Attempts := ka.Attempts + 1 }

/-- `ka.markGood()` at `now`. -/
def markGood (now : Time) : knownAddress :=
  { ka with LastAttempt := now, Attempts := 0, LastSuccess := now }

/-- `ka.addBucketRef(bucketIdx)`: the new number of buckets, `-1` if the bucket is there already. -/
def addBucketRef (bucketIdx : Int) : Int × knownAddress :=
  if bucketIdx ∈ ka.Buckets then (-1, ka)
  else ((ka.Buckets.length + 1 : Nat), { ka with Buckets := ka.Buckets ++ [bucketIdx] })

/-- `ka.removeBucketRef(bucketIdx)`: the new number of buckets, `-1` unless exactly one entry
went. -/
def removeBucketRef (bucketIdx : Int) : Int × knownAddress :=
  let buckets := ka.Buckets.filter (· ≠ bucketIdx)
  if (buckets.length : Int) ≠ ka.Buckets.length - 1 then (-1, ka)
  else (buckets.length, { ka with Buckets := buckets })

/-- `ka.isBad()` at `now`. -/
def isBad (now : Time) : Bool :=
  if ka.BucketType = bucketTypeOld then false
  else if ka.LastAttempt > now - Minute then false
  else if ka.LastAttempt < now - numMissingDays * Hour * 24 then true
  else if ka.LastSuccess = zeroTime ∧ ka.Attempts ≥ numRetries then true
  else if ka.LastSuccess < now - minBadDays * Hour * 24 ∧ ka.Attempts ≥ maxFailures then true
  else false

end knownAddress

/-- What a call reads besides the book: the clock, read once for the whole call; the order in
which the runtime visits the values of a map or in which `rand.Shuffle` leaves a slice, any
permutation; and the numbers `Int31n` and `Intn` draw, below their bound. -/
structure Env where
  now : Time
  order : List Ptr → List Ptr
  order_perm : ∀ l, (order l).Perm l
  int31n : Int32 → Int32
  int31n_lt : ∀ n, 0 < n → 0 ≤ int31n n ∧ int31n n < n
  intn : Int → Int
  intn_lt : ∀ n, 0 < n → 0 ≤ intn n ∧ intn n < n

def Env.Int31n (env : Env) (n : Int32) : Result Int32 :=
  if n ≤ 0 then .panic "invalid argument to Int31n" else .ok (env.int31n n)

def Env.Intn (env : Env) (n : Int) : Result Int :=
  if n ≤ 0 then .panic "invalid argument to Intn" else .ok (env.intn n)

/-- The errors of `AddAddress`. -/
inductive AddrBookError where
  | ErrAddrBookNilAddr (Addr Src : Option NetAddress)
  | ErrAddrBookInvalidAddrNoID (Addr : NetAddress)
  | ErrAddrBookPrivate (Addr : NetAddress)
  | ErrAddrBookPrivateSrc (Src : NetAddress)
  | ErrAddrBookSelf (Addr : NetAddress)
  | ErrAddrBookNonRoutable (Addr : NetAddress)
  | ErrAddrBookInvalidAddr (Addr : NetAddress)
deriving DecidableEq, Repr

/-- `addrBook`, with the objects its maps point to. `ourAddrs` and `privateIDs` are sets. -/
structure addrBook where
  key : Bytes
  routabilityStrict : Bool
  ourAddrs : List Bytes
  privateIDs : List Bytes
  heap : Ptr → knownAddress
  next : Ptr
  addrLookup : Map Bytes Ptr
  bucketsOld : List (Map Bytes Ptr)
  bucketsNew : List (Map Bytes Ptr)
  nOld : Int
  nNew : Int

/-- `NewAddrBook(filePath, routabilityStrict)` with `init()`, where `key` is the random hex that
`crypto.CRandHex(24)` drew. -/
def NewAddrBook (key : Bytes) (routabilityStrict : Bool) : addrBook where
  key := key
  routabilityStrict := routabilityStrict
  ourAddrs := []
  privateIDs := []
  heap := fun _ => default
  next := 0
  addrLookup := ∅
  bucketsOld := List.replicate oldBucketCount ∅
  bucketsNew := List.replicate newBucketCount ∅
  nOld := 0
  nNew := 0

def localGroup : Bytes := [108, 111, 99, 97, 108]

def unroutableGroup : Bytes := [117, 110, 114, 111, 117, 116, 97, 98, 108, 101]

/-- `binary.BigEndian.Uint64(b)`, of a slice of at least eight bytes (here a SHA-256 sum). -/
def bigEndianUint64 (b : Bytes) : Nat := (b.take 8).foldl (fun x c => x * 256 + c.toNat) 0

def putUint64 (x : Nat) : Bytes := (List.range 8).reverse.map fun i => (x / 256 ^ i % 256).toUInt8

/-- `percentageOfNum(p, n)`: `int(math.Round((float64(p) / float64(100)) * float64(n)))`. -/
def percentageOfNum (p n : Int) : Int :=
  Float64.mathRound (Float64.round (Float64.round (Float64.round p / Float64.round 100) *
    Float64.round n))

namespace addrBook

variable (net : Net) (env : Env) (a : addrBook)

def size : Int := a.nNew + a.nOld

def NeedMoreAddrs : Bool := a.size < needAddressThreshold

def Empty : Bool := a.size = 0

def AddOurAddress (addr : NetAddress) : addrBook := { a with ourAddrs := addr.String net :: a.ourAddrs }

def OurAddress (addr : NetAddress) : Bool := addr.String net ∈ a.ourAddrs

def AddPrivateIDs (IDs : List Bytes) : addrBook := { a with privateIDs := IDs ++ a.privateIDs }

def HasAddress (addr : NetAddress) : Bool := (a.addrLookup.lookup addr.ID).isSome

/-- `a.IsGood(addr)`: `isOld` of the looked up address, which is nil for an unknown one. -/
def IsGood (addr : NetAddress) : Result Bool :=
  match a.addrLookup.lookup addr.ID with
  | none => .panic nilDeref
  | some p => .ok (a.heap p).isOld

/-- The book with `ka` written to the object at `p`. -/
def write (p : Ptr) (ka : knownAddress) : addrBook := { a with heap := Function.update a.heap p ka }

def getBucket (bucketType : UInt8) (bucketIdx : Int) : Result (Map Bytes Ptr) :=
  if bucketType = bucketTypeNew then index a.bucketsNew bucketIdx
  else if bucketType = bucketTypeOld then index a.bucketsOld bucketIdx
  else .panic "Invalid bucket type"

/-- The book after writes through the map `getBucket` returned: that bucket is now `bucket`. -/
def setBucket (bucketType : UInt8) (bucketIdx : Int) (bucket : Map Bytes Ptr) : addrBook :=
  if bucketType = bucketTypeNew then { a with bucketsNew := a.bucketsNew.set bucketIdx.toNat bucket }
  else { a with bucketsOld := a.bucketsOld.set bucketIdx.toNat bucket }

def groupKey (na : NetAddress) : Bytes :=
  if a.routabilityStrict && net.Local na then localGroup
  else if a.routabilityStrict && !net.Routable na then unroutableGroup
  else net.ipGroup na.IP

def doubleSha256 (b : Bytes) : Bytes := net.sha256 (net.sha256 b)

def calcNewBucket (addr src : NetAddress) : Int :=
  let data1 := a.key ++ a.groupKey net addr ++ a.groupKey net src
  let hash64 := bigEndianUint64 (doubleSha256 net data1) % newBucketsPerGroup
  let data2 := a.key ++ a.groupKey net src ++ putUint64 hash64
  (bigEndianUint64 (doubleSha256 net data2) % newBucketCount : Nat)

def calcOldBucket (addr : NetAddress) : Int :=
  let data1 := a.key ++ addr.String net
  let hash64 := bigEndianUint64 (doubleSha256 net data1) % oldBucketsPerGroup
  let data2 := a.key ++ a.groupKey net addr ++ putUint64 hash64
  (bigEndianUint64 (doubleSha256 net data2) % oldBucketCount : Nat)

/-- `a.removeFromBucket(ka, bucketType, bucketIdx)` for the address at `p`. -/
def removeFromBucket (p : Ptr) (bucketType : UInt8) (bucketIdx : Int) : Result addrBook :=
  let ka := a.heap p
  if ka.BucketType ≠ bucketType then .ok a
  else do
    let bucket ← a.getBucket bucketType bucketIdx
    let a := a.setBucket bucketType bucketIdx (bucket.erase (ka.Addr.String net))
    let (n, ka) := ka.removeBucketRef bucketIdx
    let a := a.write p ka
    if n = 0 then
      let a := if bucketType = bucketTypeNew then { a with nNew := a.nNew - 1 }
        else { a with nOld := a.nOld - 1 }
      pure { a with addrLookup := a.addrLookup.erase ka.ID }
    else pure a

/-- `a.removeFromAllBuckets(ka)` for the address at `p`. -/
def removeFromAllBuckets (p : Ptr) : Result addrBook := do
  let ka := a.heap p
  let a ← ka.Buckets.foldlM (fun (a : addrBook) bucketIdx => do
      let bucket ← a.getBucket ka.BucketType bucketIdx
      pure (a.setBucket ka.BucketType bucketIdx (bucket.erase (ka.Addr.String net)))) a
  let a := a.write p { ka with Buckets := [] }
  let a := if ka.BucketType = bucketTypeNew then { a with nNew := a.nNew - 1 }
    else { a with nOld := a.nOld - 1 }
  pure { a with addrLookup := a.addrLookup.erase ka.ID }

/-- One round of the loop of `pickOldest`: `ka` replaces the oldest so far if it is older. -/
def olderOf (oldest : Option Ptr) (p : Ptr) : Option Ptr :=
  match oldest with
  | none => some p
  | some o => if (a.heap p).LastAttempt < (a.heap o).LastAttempt then some p else some o

/-- `a.pickOldest(bucketType, bucketIdx)`: the first address of least `LastAttempt` in the
order the runtime visits the bucket, nil for an empty bucket. -/
def pickOldest (bucketType : UInt8) (bucketIdx : Int) : Result (Option Ptr) := do
  let bucket ← a.getBucket bucketType bucketIdx
  pure ((env.order (values bucket)).foldl a.olderOf none)

/-- `a.expireNew(bucketIdx)`: the first bad address in the visiting order goes, or else the
oldest. -/
def expireNew (bucketIdx : Int) : Result addrBook := do
  let bucket ← index a.bucketsNew bucketIdx
  match (env.order (values bucket)).find? fun p => (a.heap p).isBad env.now with
  | some p => a.removeFromBucket net p bucketTypeNew bucketIdx
  | none => do
      let oldest ← a.pickOldest env bucketTypeNew bucketIdx
      match oldest with
      | none => .panic nilDeref
      | some p => a.removeFromBucket net p bucketTypeNew bucketIdx

/-- `a.addToNewBucket(ka, bucketIdx)` for the address at `p`. A full bucket (more than
`newBucketSize` entries) first loses an address to `expireNew`. -/
def addToNewBucket (p : Ptr) (bucketIdx : Int) : Result addrBook :=
  let ka := a.heap p
  if ka.isOld then .ok a
  else do
    let addrStr := ka.Addr.String net
    let bucket ← a.getBucket bucketTypeNew bucketIdx
    if addrStr ∈ bucket then pure a
    else do
      let a ← (if len bucket > newBucketSize then a.expireNew net env bucketIdx else pure a)
      let bucket ← a.getBucket bucketTypeNew bucketIdx
      let a := a.setBucket bucketTypeNew bucketIdx (bucket.insert addrStr p)
      let (n, ka) := (a.heap p).addBucketRef bucketIdx
      let a := a.write p ka
      let a := if n = 1 then { a with nNew := a.nNew + 1 } else a
      pure { a with addrLookup := a.addrLookup.insert ka.ID p }

/-- `a.addToOldBucket(ka, bucketIdx)` for the address at `p`: whether it is in the bucket, and the
book after. A full bucket (more than `oldBucketSize` entries) refuses it. -/
def addToOldBucket (p : Ptr) (bucketIdx : Int) : Result (Bool × addrBook) :=
  let ka := a.heap p
  if ka.isNew then .ok (false, a)
  else if ka.Buckets.length ≠ 0 then .ok (false, a)
  else do
    let addrStr := ka.Addr.String net
    let bucket ← a.getBucket bucketTypeOld bucketIdx
    if addrStr ∈ bucket then pure (true, a)
    else if len bucket > oldBucketSize then pure (false, a)
    else
      let a := a.setBucket bucketTypeOld bucketIdx (bucket.insert addrStr p)
      let (n, ka) := ka.addBucketRef bucketIdx
      let a := a.write p ka
      let a := if n = 1 then { a with nOld := a.nOld + 1 } else a
      pure (true, { a with addrLookup := a.addrLookup.insert ka.ID p })

/-- `a.moveToOld(ka)` for the address at `p`. When the old bucket is full its oldest address
goes, and is handed to `addToNewBucket` while its type is still old. -/
def moveToOld (p : Ptr) : Result addrBook :=
  let ka := a.heap p
  if ka.isOld then .ok a
  else if ka.Buckets.length = 0 then .ok a
  else do
    let a ← a.removeFromAllBuckets net p
    let a := a.write p { a.heap p with BucketType := bucketTypeOld }
    let oldBucketIdx := a.calcOldBucket net (a.heap p).Addr
    let (added, a) ← a.addToOldBucket net p oldBucketIdx
    if added then pure a
    else do
      let oldest ← a.pickOldest env bucketTypeOld oldBucketIdx
      match oldest with
      | none => .panic nilDeref
      | some q => do
          let a ← a.removeFromBucket net q bucketTypeOld oldBucketIdx
          let newBucketIdx := a.calcNewBucket net (a.heap q).Addr (a.heap q).Src
          let a ← a.addToNewBucket net env q newBucketIdx
          let (_, a) ← a.addToOldBucket net p oldBucketIdx
          pure a

/-- `a.addAddress(addr, src)` (and `a.AddAddress`): the error returned, and the book after. -/
def AddAddress (addr src : Option NetAddress) : Result (Option AddrBookError × addrBook) :=
  match addr, src with
  | some addr, some src =>
      if !addr.HasID then .ok (some (.ErrAddrBookInvalidAddrNoID addr), a)
      else if addr.ID ∈ a.privateIDs then .ok (some (.ErrAddrBookPrivate addr), a)
      else if src.ID ∈ a.privateIDs then .ok (some (.ErrAddrBookPrivateSrc src), a)
      else if addr.String net ∈ a.ourAddrs then .ok (some (.ErrAddrBookSelf addr), a)
      else if a.routabilityStrict && !net.Routable addr then
        .ok (some (.ErrAddrBookNonRoutable addr), a)
      else if !addr.Valid net then .ok (some (.ErrAddrBookInvalidAddr addr), a)
      else
        match a.addrLookup.lookup addr.ID with
        | some p =>
            let ka := a.heap p
            if ka.isOld && ka.Addr.Equals net addr then .ok (none, a)
            else if ka.Buckets.length = maxNewBucketsPerAddress then .ok (none, a)
            else do
              let r ← env.Int31n (Int32.ofInt (2 * ka.Buckets.length))
              if r ≠ 0 then pure (none, a)
              else do
                let a ← a.addToNewBucket net env p (a.calcNewBucket net addr src)
                pure (none, a)
        | none => do
            let p := a.next
            let a := { a.write p (newKnownAddress addr src env.now) with next := p + 1 }
            let a ← a.addToNewBucket net env p (a.calcNewBucket net addr src)
            pure (none, a)
  | _, _ => .ok (some (.ErrAddrBookNilAddr addr src), a)

/-- `a.RemoveAddress(addr)`, and `a.MarkBad(addr)`. -/
def RemoveAddress (addr : NetAddress) : Result addrBook :=
  match a.addrLookup.lookup addr.ID with
  | none => .ok a
  | some p => a.removeFromAllBuckets net p

def MarkGood (id : Bytes) : Result addrBook :=
  match a.addrLookup.lookup id with
  | none => .ok a
  | some p =>
      let a := a.write p ((a.heap p).markGood env.now)
      if (a.heap p).isNew then a.moveToOld net env p else .ok a

def MarkAttempt (addr : NetAddress) : addrBook :=
  match a.addrLookup.lookup addr.ID with
  | none => a
  | some p => a.write p ((a.heap p).markAttempt env.now)

/-- The panic of a negative `size()`. -/
def sizePanic : String :=
  "Addrbook size " ++ toString a.size ++ " (new: " ++ toString a.nNew ++ " + old: " ++
    toString a.nOld ++ ") is less than 0"

/-- The number of addresses `GetSelection` and `GetSelectionWithBias` return for a book of
`bookSize` addresses. -/
def numAddresses (bookSize : Int) : Int :=
  min maxGetSelection (max (min minGetSelection bookSize) ((bookSize * getSelectionPercent).tdiv 100))

/-- `a.GetSelection()`: the addresses of the lookup written into a slice of `size()` entries,
the first `numAddresses` of them shuffled, and those returned. -/
def GetSelection : Result (List (Option NetAddress)) :=
  let bookSize := a.size
  if bookSize ≤ 0 then (if bookSize < 0 then .panic a.sizePanic else .ok [])
  else do
    let n := numAddresses bookSize
    let (allAddr, _) ← (env.order (values a.addrLookup)).foldlM
      (fun (acc : List (Option NetAddress) × Int) p => do
        let allAddr ← update acc.1 acc.2 fun _ => some (a.heap p).Addr
        pure (allAddr, acc.2 + 1)) (List.replicate bookSize.toNat none, 0)
    let allAddr ← (List.range n.toNat).foldlM (fun (allAddr : List (Option NetAddress)) (i : Nat) =>
      do
        let r ← env.Intn (allAddr.length - i)
        let j := r + i
        let xi ← index allAddr i
        let xj ← index allAddr j
        let allAddr ← update allAddr i fun _ => xj
        update allAddr j fun _ => xi) allAddr
    slice allAddr 0 n

/-- The loop of `randomPickAddresses`: each address whose text is not chosen yet is taken, until
there are `num`. -/
def pickLoop (num : Int) : List Bytes → List NetAddress → List knownAddress → List NetAddress
  | _, selection, [] => selection
  | chosenSet, selection, ka :: rest =>
      if ka.Addr.String net ∈ chosenSet then pickLoop num chosenSet selection rest
      else
        let selection := selection ++ [ka.Addr]
        if (selection.length : Int) ≥ num then selection
        else pickLoop num (ka.Addr.String net :: chosenSet) selection rest

/-- `a.randomPickAddresses(bucketType, num)`: the addresses of the buckets of that type, shuffled,
then taken without repeats. -/
def randomPickAddresses (bucketType : UInt8) (num : Int) : Result (List NetAddress) := do
  let buckets ← (if bucketType = bucketTypeNew then pure a.bucketsNew
    else if bucketType = bucketTypeOld then pure a.bucketsOld
    else .panic "unexpected bucketType")
  if num < 0 then .panic "makeslice: cap out of range"
  else
    let addresses := (env.order (buckets.flatMap values)).map a.heap
    pure (pickLoop net num [] [] addresses)

def GetSelectionWithBias (biasTowardsNewAddrs : Int) : Result (List NetAddress) :=
  let bookSize := a.size
  if bookSize ≤ 0 then (if bookSize < 0 then .panic a.sizePanic else .ok [])
  else do
    let bias := if biasTowardsNewAddrs > 100 then 100 else biasTowardsNewAddrs
    let bias := if bias < 0 then 0 else bias
    let n := numAddresses bookSize
    let numRequiredNewAdd := max (percentageOfNum bias n) (n - a.nOld)
    let selection ← a.randomPickAddresses net env bucketTypeNew numRequiredNewAdd
    let old ← a.randomPickAddresses net env bucketTypeOld (n - selection.length)
    pure (selection ++ old)

end addrBook

/-- `addrBookJSON`. -/
structure addrBookJSON where
  Key : Bytes
  Addrs : List knownAddress

namespace addrBook

variable (net : Net) (env : Env) (a : addrBook)

/-- What `a.saveToFile(filePath)` writes, `encoding/json` taken to keep every field: the key and
the addresses of the lookup, in the order the runtime visits it. -/
def saveToFile : addrBookJSON := ⟨a.key, (env.order (values a.addrLookup)).map a.heap⟩

/-- One address of the file: a new object, put in every bucket its list names and in the
lookup, and counted. -/
def loadAddr (a : addrBook) (ka : knownAddress) : Result addrBook := do
  let p := a.next
  let a := { a.write p ka with next := p + 1 }
  let a ← ka.Buckets.foldlM (fun (a : addrBook) bucketIndex => do
      let bucket ← a.getBucket ka.BucketType bucketIndex
      pure (a.setBucket ka.BucketType bucketIndex (bucket.insert (ka.Addr.String net) p))) a
  let a := { a with addrLookup := a.addrLookup.insert ka.ID p }
  pure (if ka.BucketType = bucketTypeNew then { a with nNew := a.nNew + 1 }
    else { a with nOld := a.nOld + 1 })

/-- `a.loadFromFile(filePath)`, `file` being what the file holds: `false` and no change when
there is no file. -/
def loadFromFile (file : Option addrBookJSON) : Result (Bool × addrBook) :=
  match file with
  | none => .ok (false, a)
  | some aJSON => do
      let a ← aJSON.Addrs.foldlM (loadAddr net) { a with key := aJSON.Key }
      pure (true, a)

end addrBook

end Dgrid.Pex
