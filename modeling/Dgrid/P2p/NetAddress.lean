import Dgrid.Go.Encoding

/-! `p2p.NetAddress`: a peer's ID, IP and port. Its text `ID@host:port` keys the buckets of the
address book, and its ID keys the book's lookup. What the `net` package computes from an IP (its
text, whether it is valid, routable or local, the network it belongs to) and SHA-256 are the
parameter `Net`. An ID that passes `Valid` is hex, so it holds no `@`, and the text of an address
gives back its ID. -/

namespace Dgrid.P2p
open Go

/-- `NetAddress`. -/
structure NetAddress where
  ID : Bytes
  IP : Bytes
  Port : UInt16
deriving DecidableEq, Repr, Inhabited

/-- `IDByteLength`, the size of an address. -/
def IDByteLength : Nat := 20

/-- What the book calls of the `net` package and of `crypto/sha256`. -/
structure Net where
  /-- `net.JoinHostPort(na.IP.String(), strconv.FormatUint(uint64(na.Port), 10))` -/
  DialString : NetAddress → Bytes
  /-- `ip != nil && !(ip.IsUnspecified() || rfc3849.Contains(ip) || ip.Equal(net.IPv4bcast))` -/
  validIP : Bytes → Bool
  /-- `na.Routable()` -/
  Routable : NetAddress → Bool
  /-- `na.Local()` -/
  Local : NetAddress → Bool
  /-- the text of the network `groupKey` puts an IP in: its `/16` for IPv4 and the IPv6 forms
  that embed one, its `/32` (`/36` in he.net's range) for the other IPv6 addresses -/
  ipGroup : Bytes → Bytes
  /-- `sha256.Sum256` -/
  sha256 : Bytes → Bytes
  sha256_length : ∀ b, (sha256 b).length = 32

def protocolSep : Bytes := [58, 47, 47]

/-- What follows the first `sep` in `s`, if `s` holds one. -/
def afterSep (sep : Bytes) : Bytes → Option Bytes
  | [] => none
  | c :: s => if sep <+: c :: s then some ((c :: s).drop sep.length) else afterSep sep s

/-- `s` up to its first `sep`. -/
def beforeSep (sep : Bytes) : Bytes → Bytes
  | [] => []
  | c :: s => if sep <+: c :: s then [] else c :: beforeSep sep s

/-- `removeProtocolIfDefined(addr)`: `strings.Split(addr, "://")[1]` when `addr` holds `"://"`. -/
def removeProtocolIfDefined (addr : Bytes) : Bytes :=
  match afterSep protocolSep addr with
  | some rest => beforeSep protocolSep rest
  | none => addr

/-- `IDAddressString(id, hostPort)`: `id@hostPort`. -/
def IDAddressString (id hostPort : Bytes) : Bytes := id ++ 64 :: removeProtocolIfDefined hostPort

/-- The ID test of `Valid`: the ID is the hex of `IDByteLength` bytes. -/
def validID (id : Bytes) : Bool :=
  match DecodeString id with
  | .ok data => data.length = IDByteLength
  | .error _ => false

namespace NetAddress

variable (net : Net) (na : NetAddress)

/-- `na.String()`: `ID@host:port`, or `host:port` for an address without an ID. -/
def String : Bytes :=
  if na.ID = [] then net.DialString na else IDAddressString na.ID (net.DialString na)

def HasID : Bool := na.ID ≠ []

/-- `na.Valid()`: an ID, if there is one, is the hex of an address, and the IP is valid. -/
def Valid : Bool := (na.ID = [] || validID na.ID) && net.validIP na.IP

/-- `na.Equals(other)`: the texts are the same. -/
def Equals (other : NetAddress) : Bool := na.String net = other.String net

end NetAddress

/-! ### The text of an address gives back its ID -/

theorem hex_of_DecodeString : ∀ {s d : Bytes}, DecodeString s = .ok d →
    ∀ c ∈ s, (fromHexChar c).isSome
  | [], _, _ => by simp
  | [a], _, h => by
      unfold DecodeString at h
      split at h <;> cases h
  | a :: b :: rest, d, h => by
      unfold DecodeString at h
      split at h
      · cases h
      · cases h
      · rename_i x y hx hy
        obtain ⟨d', hd', -⟩ := except_bind_eq_ok.mp (show (DecodeString rest >>= fun d' =>
          pure ((x <<< 4 ||| y) :: d')) = .ok d from h)
        intro c hc
        rcases List.mem_cons.mp hc with rfl | hc
        · simp [hx]
        rcases List.mem_cons.mp hc with rfl | hc
        · simp [hy]
        exact hex_of_DecodeString hd' c hc

theorem at_not_mem_of_validID {id : Bytes} (h : validID id) : 64 ∉ id := by
  unfold validID at h
  split at h
  · rename_i d hd
    intro hmem
    have := hex_of_DecodeString hd 64 hmem
    exact absurd this (by decide)
  · cases h

theorem ne_nil_of_validID {id : Bytes} (h : validID id) : id ≠ [] := by
  rintro rfl
  simp [validID, DecodeString, IDByteLength] at h

theorem String_of_validID (net : Net) {na : NetAddress} (h : validID na.ID) :
    na.String net = na.ID ++ 64 :: removeProtocolIfDefined (net.DialString na) := by
  simp [NetAddress.String, ne_nil_of_validID h, IDAddressString]

theorem eq_of_append_cons_eq {α : Type} {c : α} :
    ∀ {l₁ l₂ r₁ r₂ : List α}, c ∉ l₁ → c ∉ l₂ → l₁ ++ c :: r₁ = l₂ ++ c :: r₂ → l₁ = l₂
  | [], [], _, _, _, _, _ => rfl
  | [], x :: l₂, _, _, _, h₂, h => by
      simp only [List.nil_append, List.cons_append, List.cons.injEq] at h
      exact absurd (h.1 ▸ List.mem_cons_self) h₂
  | x :: l₁, [], _, _, h₁, _, h => by
      simp only [List.nil_append, List.cons_append, List.cons.injEq] at h
      exact absurd (h.1 ▸ List.mem_cons_self) h₁
  | x :: l₁, y :: l₂, _, _, h₁, h₂, h => by
      simp only [List.cons_append, List.cons.injEq] at h
      rw [h.1, eq_of_append_cons_eq (List.not_mem_of_not_mem_cons h₁)
        (List.not_mem_of_not_mem_cons h₂) h.2]

theorem ID_eq_of_String_eq (net : Net) {a b : NetAddress} (ha : validID a.ID) (hb : validID b.ID)
    (h : a.String net = b.String net) : a.ID = b.ID := by
  rw [String_of_validID net ha, String_of_validID net hb] at h
  exact eq_of_append_cons_eq (at_not_mem_of_validID ha) (at_not_mem_of_validID hb) h

end Dgrid.P2p
