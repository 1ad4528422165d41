import Dgrid.Lite.Commit
import Dgrid.Db.MemBatch
import Dgrid.Go.Strconv

/-! The provider of lite/dbprovider.go on the store of mem_db.go. A full commit is kept as three
values under keys `"%s/%010d/sh"` and `"%s/%010d/vs"` of its chain and height: the signed header,
the validator set at its height and the next one at the height above. `LatestFullCommit` walks
the keys of a range downwards to the first that reads as a signed-header key, and with a limit
`SaveFullCommit` deletes what lies below the `limit` highest heights of the chain. The amino
codec is a parameter; the logger and the label only log. -/

namespace Dgrid.Lite

open Go Dgrid.Types Dgrid.Db GoMap

def FullCommit.ChainID (fc : FullCommit) : String := fc.SignedHeader.LeagueID

/-- The keys `"%s/%010d/<part>"` of a chain's height. -/
def heightKey (chainID : String) (height : Int) (part : String) : Bytes :=
  stringBytes chainID ++ stringBytes "/" ++ formatInt 10 height ++ stringBytes "/" ++
    stringBytes part

def signedHeaderKey (chainID : String) (height : Int) : Bytes := heightKey chainID height "sh"

def validatorSetKey (chainID : String) (height : Int) : Bytes := heightKey chainID height "vs"

/-- `keyPattern.FindSubmatch(key)` for `^([^/]+)/([0-9]*)/(.*)$`: the bytes before the first
`/`, at least one; the digits after it, all of them, which a `/` must end; and the rest, in
which `.` takes every byte but a newline. -/
def keyPatternFindSubmatch (key : Bytes) : Option (Bytes × Bytes × Bytes) :=
  let chainID := key.takeWhile (· != 0x2F)
  let rest := (key.drop chainID.length).drop 1
  let heightStr := rest.takeWhile isDigit
  let part := rest.drop heightStr.length
  if chainID ≠ [] ∧ (key.drop chainID.length).head? = some 0x2F ∧ part.head? = some 0x2F ∧
      0x0A ∉ part.drop 1 then
    some (chainID, heightStr, part.drop 1)
  else none

/-- `parseKey(key)`: the chain ID, as the bytes of the Go string, the height and the part;
`none` where `ok` is false. -/
def parseKey (key : Bytes) : Option (Bytes × Int × Bytes) :=
  match keyPatternFindSubmatch key with
  | none => none
  | some (chainID, heightStr, part) =>
    match Atoi heightStr with
    | none => none
    | some height => some (chainID, height, part)

def parseSignedHeaderKey (key : Bytes) : Option (Bytes × Int) :=
  match parseKey key with
  | some (chainID, height, part) => if part = stringBytes "sh" then some (chainID, height) else none
  | none => none

def parseChainKeyPrefix (key : Bytes) : Option (Bytes × Int) :=
  match parseKey key with
  | some (chainID, height, _) => some (chainID, height)
  | none => none

/-- The amino codec of the provider, for the two types it stores. -/
structure ProviderCodec where
  /-- `cdc.MarshalBinaryLengthPrefixed(sh)` -/
  marshalSignedHeader : SignedHeader → Except String Bytes
  /-- `cdc.UnmarshalBinaryLengthPrefixed(bz, &sh)` -/
  unmarshalSignedHeader : Bytes → Except String SignedHeader
  /-- `cdc.MarshalBinaryLengthPrefixed(vals)` -/
  marshalValidatorSet : ValidatorSet → Except String Bytes
  /-- `cdc.UnmarshalBinaryLengthPrefixed(bz, &valset)` -/
  unmarshalValidatorSet : Bytes → Except String ValidatorSet

/-- `DBProvider`: the store and the limit. -/
structure DBProvider where
  db : MemDB
  limit : Int

def NewDBProvider (_label : String) (db : MemDB) : DBProvider := ⟨db, 0⟩

namespace DBProvider

def SetLimit (dbp : DBProvider) (limit : Int) : DBProvider := { dbp with limit }

/-- The loop of `deleteAfterN`, with the last height seen and the heights counted; an error
carries the key `"unexpected key %v"` prints. The store deleted from is not the iterator's:
the iterator copied its keys. -/
def deleteLoop (after : Int) :
    Nat → memDBIterator → MemDB → Int → Int → Result (Option Bytes × MemDB)
  | 0, _, db, _, _ => pure (none, db)
  | fuel + 1, itr, db, lastHeight, numSeen =>
    if itr.Valid then do
      let key ← itr.Key
      match parseChainKeyPrefix key with
      | none => pure (some key, db)
      | some (_, height) =>
        let seen := decide (height < lastHeight)
        let lastHeight := if seen then height else lastHeight
        let numSeen := if seen then numSeen + 1 else numSeen
        let db := if numSeen > after then db.Delete key else db
        let itr ← itr.Next
        deleteLoop after fuel itr db lastHeight numSeen
    else pure (none, db)

/-- `dbp.deleteAfterN(chainID, after)` on the store `db`. -/
def deleteAfterN (db : MemDB) (chainID : String) (after : Int) : Result (Option Bytes × MemDB) :=
  let itr := db.ReverseIterator (signedHeaderKey chainID 1)
    (some (signedHeaderKey chainID maxInt64 ++ [0x00]))
  deleteLoop after (len db.db + 1) itr db maxInt64 0

section Codec
variable (cdc : ProviderCodec)

/-- `dbp.SaveFullCommit(fc)`: the three values go in one batch, written with `WriteSync`; an
encoding error returns before the write. The error of `deleteAfterN` is dropped. -/
def SaveFullCommit (dbp : DBProvider) (fc : FullCommit) : Result (Except String DBProvider) :=
  match cdc.marshalValidatorSet fc.Validators with
  | .error err => pure (.error err)
  | .ok vsBz =>
    match cdc.marshalValidatorSet fc.NextValidators with
    | .error err => pure (.error err)
    | .ok nvsBz =>
      match cdc.marshalSignedHeader fc.SignedHeader with
      | .error err => pure (.error err)
      | .ok shBz =>
        let batch := dbp.db.NewBatch
        let batch := batch.Set (validatorSetKey fc.ChainID fc.Height) vsBz
        let batch := batch.Set (validatorSetKey fc.ChainID (wrap64 (fc.Height + 1))) nvsBz
        let batch := batch.Set (signedHeaderKey fc.ChainID fc.Height) shBz
        let dbp := { dbp with db := batch.WriteSync MemDB.setDeleter dbp.db }
        if dbp.limit > 0 then do
          let deleted ← deleteAfterN dbp.db fc.ChainID dbp.limit
          pure (.ok { dbp with db := deleted.2 })
        else pure (.ok dbp)

/-- What `getValidatorSet` makes of the value it read, nil or not: the set decoded, with its
total voting power. -/
def readValidatorSet (chainID : String) (height : Int) :
    Option Bytes → Result (Except LiteError Types.ValidatorSet)
  | none => pure (.error (.unknownValidators chainID height))
  | some vsBz =>
    match cdc.unmarshalValidatorSet vsBz with
    | .error err => pure (.error (.other err))
    | .ok valset => do
      let total ← valset.TotalVotingPower
      pure (.ok total.2)

def getValidatorSet (dbp : DBProvider) (chainID : String) (height : Int) :
    Result (Except LiteError Types.ValidatorSet) :=
  readValidatorSet cdc chainID height (dbp.db.Get (validatorSetKey chainID height))

def ValidatorSet (dbp : DBProvider) (chainID : String) (height : Int) :
    Result (Except LiteError Types.ValidatorSet) :=
  dbp.getValidatorSet cdc chainID height

/-- `dbp.fillFullCommit(sh)`: the sets at the header's height and the one above. -/
def fillFullCommit (dbp : DBProvider) (sh : SignedHeader) : Result (Except LiteError FullCommit) := do
  match ← dbp.getValidatorSet cdc sh.LeagueID sh.Height with
  | .error err => pure (.error err)
  | .ok valset =>
    match ← dbp.getValidatorSet cdc sh.LeagueID (wrap64 (sh.Height + 1)) with
    | .error err => pure (.error err)
    | .ok nextValset => pure (.ok ⟨sh, valset, nextValset⟩)

/-- What `LatestFullCommit` makes of the value of the key it stops at: the header decoded and
filled with its validator sets. -/
def readSignedHeader (dbp : DBProvider) (shBz : Option Bytes) : Result (Except LiteError FullCommit) :=
  match cdc.unmarshalSignedHeader (shBz.getD []) with
  | .error err => pure (.error (.other err))
  | .ok sh => dbp.fillFullCommit cdc sh

/-- The loop of `LatestFullCommit` over the reverse iterator: a key that is not a signed-header
key is skipped, the first that is ends the loop. -/
def latestLoop (dbp : DBProvider) : Nat → memDBIterator → Result (Except LiteError FullCommit)
  | 0, _ => pure (.error .commitNotFound)
  | fuel + 1, itr =>
    if itr.Valid then do
      let key ← itr.Key
      match parseSignedHeaderKey key with
      | none =>
        let itr ← itr.Next
        dbp.latestLoop fuel itr
      | some _ =>
        let shBz ← itr.Value
        dbp.readSignedHeader cdc shBz
    else pure (.error .commitNotFound)

/-- `dbp.LatestFullCommit(chainID, minHeight, maxHeight)`: a bound of `0` or below means `1`
below, `0` above means `MaxInt64`; the range ends after the signed-header key of `maxHeight`. -/
def LatestFullCommit (dbp : DBProvider) (chainID : String) (minHeight maxHeight : Int) :
    Result (Except LiteError FullCommit) :=
  let minHeight := if minHeight ≤ 0 then 1 else minHeight
  let maxHeight := if maxHeight = 0 then maxInt64 else maxHeight
  let itr := dbp.db.ReverseIterator (signedHeaderKey chainID minHeight)
    (some (signedHeaderKey chainID maxHeight ++ [0x00]))
  dbp.latestLoop cdc (len dbp.db.db + 1) itr

end Codec

end DBProvider

end Dgrid.Lite
