import Dgrid.Crypto.CompactBitArraySpec
import Dgrid.Types.Vote

/-! `crypto/multisig`: a threshold multisignature is a compact bit array of the keys that
signed and their signatures in the order of the keys. `AddSignature` keeps one signature for
each set bit, in index order, the last one added for each index. `VerifyBytes` decodes the
signature with amino, a parameter here, and trusts the decoded bit array's size: one whose
`ExtraBitsStored` is past eight claims bits it has no bytes for, and reading them panics. -/

namespace Dgrid.Multisig
open Go Dgrid.Bitarray Dgrid.Bitarray.CompactBitArray

/-- `Multisignature`. -/
structure Multisignature where
  BitArray : Option CompactBitArray
  Sigs : List Bytes
deriving DecidableEq, Repr

def NewMultisig (n : Int) : Multisignature := ⟨NewCompactBitArray n, []⟩

/-- `getIndex(pk, keys)`: the first index of `pk` in `keys`, `-1` if it is not there. -/
def getIndex (pk : Types.PubKey) (keys : List Types.PubKey) : Int :=
  match keys.findIdx? (· == pk) with
  | some i => i
  | none => -1

/-- The slice `Sigs` with `sig` put in at `k`, the later ones moved up: the `append` of a
dummy, the overlapping `copy` one place up, and the write at `k`. -/
def insertSig (Sigs : List Bytes) (k : Int) (sig : Bytes) : Result (List Bytes) := do
  let Sigs := Sigs ++ [[]]
  let dst ← slice Sigs (k + 1) Sigs.length
  let src ← slice Sigs k Sigs.length
  let Sigs := Sigs.take (k + 1).toNat ++ Go.copy dst src
  update Sigs k fun _ => sig

/-- `AddSignature(sig, index)`: a signature already there is replaced; otherwise the bit is set
and the signature goes where the set bits before `index` say. -/
def AddSignature (mSig : Multisignature) (sig : Bytes) (index : Int) : Result Multisignature := do
  let newSigIndex ← NumTrueBitsBefore mSig.BitArray index
  let present ← GetIndex mSig.BitArray index
  if present then
    let Sigs ← update mSig.Sigs newSigIndex fun _ => sig
    pure { mSig with Sigs }
  else
    let (_, BitArray) ← SetIndex mSig.BitArray index true
    if newSigIndex = mSig.Sigs.length then pure ⟨BitArray, mSig.Sigs ++ [sig]⟩
    else
      let Sigs ← insertSig mSig.Sigs newSigIndex sig
      pure ⟨BitArray, Sigs⟩

/-- The error of `AddSignatureFromPubKey` for a key not among the keys. -/
def keyNotFound : String := "provided key didn't exist in pubkeys"

def AddSignatureFromPubKey (mSig : Multisignature) (sig : Bytes) (pubkey : Types.PubKey)
    (keys : List Types.PubKey) : Result (Except String Multisignature) := do
  let index := getIndex pubkey keys
  if index = -1 then pure (.error keyNotFound)
  else
    let mSig ← AddSignature mSig sig index
    pure (.ok mSig)

end Dgrid.Multisig
