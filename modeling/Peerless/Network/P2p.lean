import Peerless.Lib.Text
import Mathlib.Data.Finset.Insert

/-!
# The endpoint of the peer-to-peer network

`P2pRpc` as far as it decides about addresses: the calls that pass an address on to the swarm, and the
relays a relay-private endpoint goes through.  The swarm is the other end of a channel; whether it takes a
command and what it answers is an input of every call.  Of a multiaddr only the protocols the source looks
at are told apart, and how texts are parsed is a parameter.
-/

namespace Peerless.Network

open Text

/-! ### Addresses -/

/-- A libp2p peer id. -/
structure PeerId where
  bytes : Bytes
  deriving DecidableEq

/-- The protocols of a multiaddr; `other` stands for those nothing looks at. -/
inductive Protocol where
  | ip4 (a b c d : UInt8)
  | ip6 (address : BitVec 128)
  | p2p (peer : PeerId)
  | p2pCircuit
  | other (text : String)
  deriving DecidableEq

abbrev Multiaddr := List Protocol

def hasCircuit (address : Multiaddr) : Bool := address.any fun protocol => protocol = .p2pCircuit

/-- The loop of `circuit_relay`, with the peer named last. -/
def circuitRelayFrom : Option PeerId → Multiaddr → Option PeerId
  | _, [] => none
  | _, .p2p peer :: rest => circuitRelayFrom (some peer) rest
  | preceding, .p2pCircuit :: _ => preceding
  | preceding, _ :: rest => circuitRelayFrom preceding rest

def circuitRelay (address : Multiaddr) : Option PeerId := circuitRelayFrom none address

def terminalPeer (address : Multiaddr) : Option PeerId :=
  match address.getLast? with
  | some (.p2p peer) => some peer
  | _ => none

def isLoopback (address : Multiaddr) : Bool :=
  match address.head? with
  | some (.ip4 a _ _ _) => a = 127
  | some (.ip6 address) => address = 1
  | _ => false

/-! ### The endpoint -/

/-- The commands that carry an address. -/
inductive Command where
  | listen (address : Multiaddr)
  | dial (address : Multiaddr)
  | addPeer (peer : PeerId) (address : Multiaddr)
  deriving DecidableEq

def Command.address : Command → Multiaddr
  | .listen address => address
  | .dial address => address
  | .addPeer _ address => address

/-- What becomes of a command: the channel is closed, or the swarm gets it and answers, or no answer
comes in time, which is an error as well. -/
inductive Answer where
  | closed
  | reply (result : Except String Unit)

/-- A `P2pRpc`: the mode, the peers of the configured relays and the commands the swarm got, the latest
first.  `configured` records the multiaddrs the relays were configured with, which the source forgets. -/
structure P2pRpc where
  relayPrivate : Bool
  privacyRelays : Finset PeerId
  commands : List Command
  configured : List Multiaddr

/-- `P2pRpc::start_relay_private`, as far as it decides. -/
def P2pRpc.startRelayPrivate (listenAddress : Multiaddr) : Except String P2pRpc :=
  if isLoopback listenAddress then .ok ⟨true, ∅, [], []⟩
  else .error "relay-private mode requires a loopback-only base listener"

namespace P2pRpc

/-- A command goes to the swarm. -/
def send (s : P2pRpc) (command : Command) : Answer → P2pRpc × Except String Unit
  | .closed => (s, .error "channel closed")
  | .reply result => ({ s with commands := command :: s.commands }, result)

/-- A call that passes a command on unless the endpoint is relay-private and does not allow it. -/
def pass (s : P2pRpc) (allowed : Bool) (refusal : String) (command : Command) (answer : Answer) :
    P2pRpc × Except String Unit :=
  if s.relayPrivate ∧ ¬ allowed then (s, .error refusal) else s.send command answer

def usesConfiguredCircuit (s : P2pRpc) (address : Multiaddr) : Bool :=
  (circuitRelay address).any fun peer => peer ∈ s.privacyRelays

def listenOn (s : P2pRpc) (address : Multiaddr) (answer : Answer) : P2pRpc × Except String Unit :=
  s.pass (s.usesConfiguredCircuit address)
    "relay-private mode accepts listeners only through configured relays" (.listen address) answer

/-- The test of `dial`. -/
def allowsDial (s : P2pRpc) (address : Multiaddr) : Bool :=
  let target := terminalPeer address
  let allowedCircuit := (circuitRelay address).any fun peer => peer ∈ s.privacyRelays
  let allowedRelay := !hasCircuit address && target.any fun peer => peer ∈ s.privacyRelays
  allowedCircuit || allowedRelay

def dial (s : P2pRpc) (address : Multiaddr) (answer : Answer) : P2pRpc × Except String Unit :=
  s.pass (s.allowsDial address) "relay-private mode rejects direct peer dials" (.dial address) answer

def addPeer (s : P2pRpc) (peer : PeerId) (address : Multiaddr) (answer : Answer) :
    P2pRpc × Except String Unit :=
  s.pass (s.usesConfiguredCircuit address)
    "relay-private mode accepts peer addresses only through configured relays" (.addPeer peer address)
    answer

/-- `configure_privacy_relay`: the relay counts as configured even if it cannot be dialled. -/
def configurePrivacyRelay (s : P2pRpc) (address : Multiaddr) (answer : Answer) :
    P2pRpc × Except String Unit :=
  if ¬ s.relayPrivate then (s, .error "privacy relay can only be configured in relay-private mode")
  else if hasCircuit address then
    (s, .error "privacy relay address must be a direct relay multiaddr")
  else
    match terminalPeer address with
    | none => (s, .error "privacy relay address must end in /p2p/PEER_ID")
    | some peer =>
      { s with privacyRelays := insert peer s.privacyRelays, configured := address :: s.configured }.send
        (.dial address) answer

end P2pRpc

/-! ### The peer cache -/

def maxPeerCacheBytes : ℕ := 4 * 1024 * 1024

def maxPeerCacheEntries : ℕ := 4096

/-- How the cache and its texts are read. -/
structure CacheFormat where
  entries : Bytes → Except String (List (String × String))
  peer : String → Except String PeerId
  address : String → Except String Multiaddr

variable (F : CacheFormat)

/-- `read_limited` and `parse_peer_cache`. -/
def parsePeerCache (bytes : Bytes) : Except String (List (String × String)) :=
  if bytes.length > maxPeerCacheBytes then .error "file exceeds 4194304 byte limit"
  else
    match F.entries bytes with
    | .error err => .error err
    | .ok entries =>
      if entries.length > maxPeerCacheEntries then .error "peer cache exceeds entry limit"
      else .ok entries

/-- The loop of `load_peer_cache`; it stops at the first entry that is not taken. -/
def P2pRpc.loadEntries (answers : ℕ → Answer) :
    ℕ → P2pRpc → List (String × String) → P2pRpc × Except String ℕ
  | loaded, s, [] => (s, .ok loaded)
  | loaded, s, (peer, address) :: entries =>
    match F.peer peer with
    | .error err => (s, .error err)
    | .ok peer =>
      match F.address address with
      | .error err => (s, .error err)
      | .ok address =>
        match s.addPeer peer address (answers loaded) with
        | (s, .error err) => (s, .error err)
        | (s, .ok ()) => P2pRpc.loadEntries answers (loaded + 1) s entries

/-- `load_peer_cache`; `none` if there is no file. -/
def P2pRpc.loadPeerCache (s : P2pRpc) (file : Option Bytes) (answers : ℕ → Answer) :
    P2pRpc × Except String ℕ :=
  match file with
  | none => (s, .ok 0)
  | some bytes =>
    match parsePeerCache F bytes with
    | .error err => (s, .error err)
    | .ok entries => s.loadEntries F answers 0 entries

/-! ### What a call can do -/

variable {F} {s : P2pRpc}

/-- A relay-private endpoint passes a command on only if it allows it. -/
theorem P2pRpc.pass_cases (hprivate : s.relayPrivate = true) (allowed : Bool) (refusal : String)
    (command : Command) (answer : Answer) :
    (s.pass allowed refusal command answer).1 = s ∨
      (allowed = true ∧
        (s.pass allowed refusal command answer).1 = { s with commands := command :: s.commands }) := by
  rw [P2pRpc.pass]
  cases allowed with
  | false =>
    rw [if_pos ⟨hprivate, Bool.false_ne_true⟩]
    exact Or.inl rfl
  | true =>
    rw [if_neg fun h => h.2 rfl]
    cases answer with
    | closed => exact Or.inl rfl
    | reply result => exact Or.inr ⟨rfl, rfl⟩

/-- **What `add_peer` keeps, the loop of `load_peer_cache` keeps.** -/
theorem P2pRpc.loadEntries_invariant {I : P2pRpc → Prop} {answers : ℕ → Answer}
    {entries : List (String × String)}
    (hadd : ∀ t peer address answer, (∃ entry ∈ entries, F.address entry.2 = .ok address) → I t →
      I (t.addPeer peer address answer).1) :
    ∀ (loaded : ℕ) (s : P2pRpc), I s → I (s.loadEntries F answers loaded entries).1 := by
  induction entries with
  | nil => exact fun _ _ hs => hs
  | cons entry entries ih =>
    obtain ⟨peerText, addressText⟩ := entry
    intro loaded s hs
    rw [P2pRpc.loadEntries]
    split
    · exact hs
    · rename_i peer _
      split
      · exact hs
      · rename_i address haddress
        have hnext : I (s.addPeer peer address (answers loaded)).1 :=
          hadd s peer address _ ⟨_, List.mem_cons_self, haddress⟩ hs
        have hrest := ih fun t peer address answer hentry =>
          hadd t peer address answer (hentry.imp fun _ h => ⟨List.mem_cons_of_mem _ h.1, h.2⟩)
        split
        · rename_i t err hstop
          rw [hstop] at hnext
          exact hnext
        · rename_i t hgo
          rw [hgo] at hnext
          exact hrest (loaded + 1) t hnext

end Peerless.Network
