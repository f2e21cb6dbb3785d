import Peerless.Lib.Runs
import Peerless.Network.P2p

/-!
# Relay-private mode

A relay-private endpoint is meant to contact configured relays only, directly or as the first leg of a
circuit.  It remembers the peers of its relays and not their addresses: an address that names the peer of a
relay is let through whatever transport it starts with.

* `relay_private` — if every address that names a configured relay starts with the multiaddr
  the relay was configured with, all addresses passed on are configured ones or circuits through them, and
  for a single call that is exactly the condition.
-/

namespace Peerless.Network

open Text

variable {F : CacheFormat} {s s' : P2pRpc}

/-! ### Addresses through a relay -/

/-- The part of an address up to its first circuit. -/
def relayPart (address : Multiaddr) : Multiaddr := address.takeWhile fun protocol => protocol ≠ .p2pCircuit

/-- A configured multiaddr, or one that extends it by `/p2p-circuit`. -/
def Covered (configured : List Multiaddr) (address : Multiaddr) : Prop :=
  ∃ relay ∈ configured, address = relay ∨ ∃ rest, address = relay ++ .p2pCircuit :: rest

theorem hasCircuit_eq_false {address : Multiaddr} :
    hasCircuit address = false ↔ ∀ protocol ∈ address, protocol ≠ .p2pCircuit := by
  simp [hasCircuit]

theorem relayPart_append {relay : Multiaddr} (h : hasCircuit relay = false) (rest : Multiaddr) :
    relayPart (relay ++ .p2pCircuit :: rest) = relay := by
  have hrelay : ∀ protocol ∈ relay, decide (protocol ≠ .p2pCircuit) = true := fun protocol hprotocol =>
    decide_eq_true (hasCircuit_eq_false.mp h protocol hprotocol)
  rw [relayPart, List.takeWhile_append_of_pos hrelay, List.takeWhile_cons_of_neg (by simp),
    List.append_nil]

theorem relayPart_of_direct {address : Multiaddr} (h : hasCircuit address = false) :
    relayPart address = address :=
  List.takeWhile_eq_self_iff.mpr fun protocol hprotocol =>
    decide_eq_true (hasCircuit_eq_false.mp h protocol hprotocol)

/-- An address is its relay part, or goes on with a circuit. -/
theorem eq_relayPart (address : Multiaddr) :
    address = relayPart address ∨ ∃ rest, address = relayPart address ++ .p2pCircuit :: rest := by
  induction address with
  | nil => exact Or.inl rfl
  | cons protocol address ih =>
    by_cases hcircuit : protocol = .p2pCircuit
    · have hpart : relayPart (protocol :: address) = [] :=
        List.takeWhile_cons_of_neg (by simp [hcircuit])
      rw [hpart, hcircuit]
      exact Or.inr ⟨address, rfl⟩
    · have hpart : relayPart (protocol :: address) = protocol :: relayPart address :=
        List.takeWhile_cons_of_pos (decide_eq_true hcircuit)
      rw [hpart]
      rcases ih with hdirect | ⟨rest, hrest⟩
      · exact Or.inl (congrArg (protocol :: ·) hdirect)
      · exact Or.inr ⟨rest, congrArg (protocol :: ·) hrest⟩

/-- **Covered addresses are those whose relay part was configured.** -/
theorem covered_iff {configured : List Multiaddr}
    (hdirect : ∀ relay ∈ configured, hasCircuit relay = false) {address : Multiaddr} :
    Covered configured address ↔ relayPart address ∈ configured := by
  constructor
  · rintro ⟨relay, hrelay, rfl | ⟨rest, rfl⟩⟩
    · rw [relayPart_of_direct (hdirect address hrelay)]
      exact hrelay
    · rw [relayPart_append (hdirect relay hrelay)]
      exact hrelay
  · intro hpart
    exact ⟨relayPart address, hpart, eq_relayPart address⟩

theorem Covered.mono {configured configured' : List Multiaddr} {address : Multiaddr}
    (h : Covered configured address) (hsub : ∀ relay ∈ configured, relay ∈ configured') :
    Covered configured' address := by
  obtain ⟨relay, hrelay, hshape⟩ := h
  exact ⟨relay, hsub relay hrelay, hshape⟩

/-! ### The calls -/

inductive Call where
  | configurePrivacyRelay (address : Multiaddr) (answer : Answer)
  | addPeer (peer : PeerId) (address : Multiaddr) (answer : Answer)
  | listenOn (address : Multiaddr) (answer : Answer)
  | dial (address : Multiaddr) (answer : Answer)
  | loadPeerCache (file : Option Bytes) (answers : ℕ → Answer)

variable (F) in
/-- One call. -/
def call (s : P2pRpc) : Call → Option P2pRpc
  | .configurePrivacyRelay address answer => some (s.configurePrivacyRelay address answer).1
  | .addPeer peer address answer => some (s.addPeer peer address answer).1
  | .listenOn address answer => some (s.listenOn address answer).1
  | .dial address answer => some (s.dial address answer).1
  | .loadPeerCache file answers => some (s.loadPeerCache F file answers).1

variable (F) in
/-- The addresses in a cache. -/
def cachedAddresses (file : Option Bytes) : List Multiaddr :=
  ((file.bind fun bytes => (parsePeerCache F bytes).toOption).getD []).filterMap fun entry =>
    (F.address entry.2).toOption

variable (F) in
/-- The addresses given to a call that name a configured relay. -/
def offered (s : P2pRpc) : Call → List Multiaddr
  | .configurePrivacyRelay _ _ => []
  | .addPeer _ address _ => [address].filter s.usesConfiguredCircuit
  | .listenOn address _ => [address].filter s.usesConfiguredCircuit
  | .dial address _ => [address].filter s.allowsDial
  | .loadPeerCache file _ => (cachedAddresses F file).filter s.usesConfiguredCircuit

variable (F) in
/-- **The condition on a call**: an address that names a configured relay starts with the multiaddr the
relay was configured with. -/
def authentic (s : P2pRpc) (c : Call) : Bool :=
  (offered F s c).all fun address => relayPart address ∈ s.configured

/-- The address names the peer of one of the relays. -/
def Names (relays : Finset PeerId) (address : Multiaddr) : Prop :=
  ∃ peer ∈ relays, circuitRelay address = some peer ∨
    (hasCircuit address = false ∧ terminalPeer address = some peer)

theorem any_relay_iff {found : Option PeerId} {relays : Finset PeerId} :
    (found.any fun peer => peer ∈ relays) = true ↔ ∃ peer ∈ relays, found = some peer := by
  rw [Option.any_eq_true]
  constructor
  · rintro ⟨peer, hpeer, hmem⟩
    exact ⟨peer, of_decide_eq_true hmem, hpeer⟩
  · rintro ⟨peer, hmem, hpeer⟩
    exact ⟨peer, hpeer, decide_eq_true hmem⟩

theorem allowsDial_iff {address : Multiaddr} :
    s.allowsDial address = true ↔ Names s.privacyRelays address := by
  rw [P2pRpc.allowsDial, Bool.or_eq_true, Bool.and_eq_true, Bool.not_eq_true', any_relay_iff,
    any_relay_iff]
  constructor
  · rintro (⟨peer, hmem, hpeer⟩ | ⟨hdirect, peer, hmem, hpeer⟩)
    · exact ⟨peer, hmem, Or.inl hpeer⟩
    · exact ⟨peer, hmem, Or.inr ⟨hdirect, hpeer⟩⟩
  · rintro ⟨peer, hmem, hpeer | ⟨hdirect, hpeer⟩⟩
    · exact Or.inl ⟨peer, hmem, hpeer⟩
    · exact Or.inr ⟨hdirect, peer, hmem, hpeer⟩

theorem names_offered {c : Call} {address : Multiaddr} (h : address ∈ offered F s c) :
    Names s.privacyRelays address := by
  have hcircuit : s.usesConfiguredCircuit address = true → Names s.privacyRelays address := by
    intro huses
    obtain ⟨peer, hmem, hpeer⟩ := any_relay_iff.mp huses
    exact ⟨peer, hmem, Or.inl hpeer⟩
  cases c with
  | configurePrivacyRelay _ _ => cases h
  | addPeer _ _ _ => exact hcircuit (List.mem_filter.mp h).2
  | listenOn _ _ => exact hcircuit (List.mem_filter.mp h).2
  | dial _ _ => exact allowsDial_iff.mp (List.mem_filter.mp h).2
  | loadPeerCache _ _ => exact hcircuit (List.mem_filter.mp h).2

/-! ### What a call keeps -/

/-- The endpoint has passed on more commands and is else as it was; all addresses passed on satisfy `Q`. -/
structure PassedOn (s : P2pRpc) (Q : Multiaddr → Prop) (t : P2pRpc) : Prop where
  mode : t.relayPrivate = s.relayPrivate
  relays : t.privacyRelays = s.privacyRelays
  configured : t.configured = s.configured
  passed : ∀ command ∈ t.commands, Q command.address

variable {Q : Multiaddr → Prop} {t : P2pRpc}

theorem PassedOn.pass (hmode : s.relayPrivate = true) (h : PassedOn s Q t) (command : Command)
    {allowed : Bool} (hallowed : allowed = true → Q command.address) (refusal : String)
    (answer : Answer) : PassedOn s Q (t.pass allowed refusal command answer).1 := by
  rcases P2pRpc.pass_cases (h.mode.trans hmode) allowed refusal command answer with hsame | ⟨hyes, hsent⟩
  · rw [hsame]
    exact h
  · rw [hsent]
    exact ⟨h.mode, h.relays, h.configured, List.forall_mem_cons.mpr ⟨hallowed hyes, h.passed⟩⟩

theorem PassedOn.addPeer (hmode : s.relayPrivate = true) (h : PassedOn s Q t) {address : Multiaddr}
    (hallowed : s.usesConfiguredCircuit address = true → Q address) (peer : PeerId) (answer : Answer) :
    PassedOn s Q (t.addPeer peer address answer).1 := by
  refine h.pass hmode (.addPeer peer address) (fun huses => hallowed ?_) _ answer
  rw [P2pRpc.usesConfiguredCircuit, h.relays] at huses
  exact huses

/-- A call that configures no relay passes on what it was offered, at most. -/
theorem passedOn_call (hmode : s.relayPrivate = true) (hpassed : ∀ command ∈ s.commands, Q command.address)
    {c : Call} (hoffered : ∀ address ∈ offered F s c, Q address)
    (hc : ∀ relay answer, c ≠ .configurePrivacyRelay relay answer) (h : call F s c = some s') :
    PassedOn s Q s' := by
  have hstart : PassedOn s Q s := ⟨rfl, rfl, rfl, hpassed⟩
  cases c with
  | configurePrivacyRelay relay answer => exact absurd rfl (hc relay answer)
  | addPeer peer address answer =>
    cases h
    exact hstart.addPeer hmode
      (fun huses => hoffered address (List.mem_filter.mpr ⟨List.mem_singleton_self _, huses⟩)) peer answer
  | listenOn address answer =>
    cases h
    exact hstart.pass hmode (.listen address)
      (fun huses => hoffered address (List.mem_filter.mpr ⟨List.mem_singleton_self _, huses⟩)) _ answer
  | dial address answer =>
    cases h
    exact hstart.pass hmode (.dial address)
      (fun hallows => hoffered address (List.mem_filter.mpr ⟨List.mem_singleton_self _, hallows⟩)) _ answer
  | loadPeerCache file answers =>
    cases h
    cases file with
    | none => exact hstart
    | some bytes =>
      rw [P2pRpc.loadPeerCache]
      split
      · exact hstart
      · rename_i entries hentries
        refine P2pRpc.loadEntries_invariant ?_ 0 s hstart
        rintro t peer address answer ⟨entry, hentry, haddress⟩ ht
        refine ht.addPeer hmode (fun huses => hoffered address (List.mem_filter.mpr ⟨?_, huses⟩)) peer answer
        have hfile : ((some bytes).bind fun bytes => (parsePeerCache F bytes).toOption) = some entries := by
          rw [Option.bind_some, hentries]
          rfl
        rw [cachedAddresses, hfile]
        refine List.mem_filterMap.mpr ⟨entry, hentry, ?_⟩
        rw [haddress]
        rfl

/-- `configure_privacy_relay` fails, or adds the relay and dials it at most. -/
theorem configure_cases (relay : Multiaddr) (answer : Answer) :
    (s.configurePrivacyRelay relay answer).1 = s ∨
    ∃ peer commands, hasCircuit relay = false ∧ terminalPeer relay = some peer ∧
      (commands = s.commands ∨ commands = .dial relay :: s.commands) ∧
      (s.configurePrivacyRelay relay answer).1 =
        ⟨s.relayPrivate, insert peer s.privacyRelays, commands, relay :: s.configured⟩ := by
  rw [P2pRpc.configurePrivacyRelay]
  split
  · exact Or.inl rfl
  · split
    · exact Or.inl rfl
    · rename_i hdirect
      split
      · exact Or.inl rfl
      · rename_i peer hpeer
        have hnone : hasCircuit relay = false := Bool.eq_false_iff.mpr hdirect
        cases answer with
        | closed => exact Or.inr ⟨peer, _, hnone, hpeer, Or.inl rfl, rfl⟩
        | reply result => exact Or.inr ⟨peer, _, hnone, hpeer, Or.inr rfl, rfl⟩

/-- A relay-private endpoint whose relays have direct addresses; every address passed on names one of
them. -/
structure Private (s : P2pRpc) : Prop where
  mode : s.relayPrivate = true
  direct : ∀ relay ∈ s.configured, hasCircuit relay = false
  named : ∀ command ∈ s.commands, Names s.privacyRelays command.address

variable {c : Call}

/-- **Every address passed on names a configured relay.** -/
theorem private_call (hs : Private s) (h : call F s c = some s') : Private s' := by
  have hother : (∀ relay answer, c ≠ .configurePrivacyRelay relay answer) → Private s' := by
    intro hc
    have hpassed := passedOn_call hs.mode hs.named (fun _ => names_offered) hc h
    refine ⟨hpassed.mode.trans hs.mode, ?_, ?_⟩
    · rw [hpassed.configured]
      exact hs.direct
    · rw [hpassed.relays]
      exact hpassed.passed
  cases c with
  | configurePrivacyRelay relay answer =>
    cases h
    rcases configure_cases (s := s) relay answer with hsame | ⟨peer, commands, hdirect, hpeer, hsent, hnew⟩
    · rw [hsame]
      exact hs
    · rw [hnew]
      have hold : ∀ command ∈ s.commands, Names (insert peer s.privacyRelays) command.address := by
        intro command hcommand
        obtain ⟨known, hknown, hnames⟩ := hs.named command hcommand
        exact ⟨known, Finset.mem_insert_of_mem hknown, hnames⟩
      refine ⟨hs.mode, List.forall_mem_cons.mpr ⟨hdirect, hs.direct⟩, ?_⟩
      rcases hsent with rfl | rfl
      · exact hold
      · refine List.forall_mem_cons.mpr ⟨⟨peer, Finset.mem_insert_self _ _, Or.inr ⟨hdirect, hpeer⟩⟩, hold⟩
  | _ => exact hother fun _ _ => by simp

/-- **One call with authentic addresses** passes on covered ones. -/
theorem covered_call (hs : Private s)
    (hcovered : ∀ command ∈ s.commands, Covered s.configured command.address)
    (hauthentic : authentic F s c = true) (h : call F s c = some s') :
    ∀ command ∈ s'.commands, Covered s'.configured command.address := by
  have hoffered : ∀ address ∈ offered F s c, Covered s.configured address := fun address haddress =>
    (covered_iff hs.direct).mpr (of_decide_eq_true (List.all_eq_true.mp hauthentic address haddress))
  have hother : (∀ relay answer, c ≠ .configurePrivacyRelay relay answer) →
      ∀ command ∈ s'.commands, Covered s'.configured command.address := by
    intro hc
    have hpassed := passedOn_call hs.mode hcovered hoffered hc h
    rw [hpassed.configured]
    exact hpassed.passed
  cases c with
  | configurePrivacyRelay relay answer =>
    cases h
    rcases configure_cases (s := s) relay answer with hsame | ⟨peer, commands, _, _, hsent, hnew⟩
    · rw [hsame]
      exact hcovered
    · rw [hnew]
      have hold : ∀ command ∈ s.commands, Covered (relay :: s.configured) command.address :=
        fun command hcommand => (hcovered command hcommand).mono fun _ => List.mem_cons_of_mem relay
      rcases hsent with rfl | rfl
      · exact hold
      · exact List.forall_mem_cons.mpr ⟨⟨relay, List.mem_cons_self, Or.inl rfl⟩, hold⟩
  | _ => exact hother fun _ _ => by simp

/-! ### The condition is exact -/

/-- A call with one address, and a swarm that takes commands. -/
def Call.answered : Call → Bool
  | .addPeer _ _ (.reply _) => true
  | .listenOn _ (.reply _) => true
  | .dial _ (.reply _) => true
  | _ => false

/-- A command that was allowed and passed on is covered only if its relay part was configured. -/
theorem relayPart_of_pass (hs : Private s) {test : Multiaddr → Bool} {refusal : String}
    (command : Command) {result : Except String Unit}
    (hcovered : ∀ passed ∈ (s.pass (test command.address) refusal command (.reply result)).1.commands,
      Covered (s.pass (test command.address) refusal command (.reply result)).1.configured passed.address)
    {address : Multiaddr} (haddress : address ∈ [command.address].filter test) :
    relayPart address ∈ s.configured := by
  obtain ⟨hgiven, htest⟩ := List.mem_filter.mp haddress
  rw [List.mem_singleton.mp hgiven] at htest ⊢
  have hpass : (s.pass (test command.address) refusal command (.reply result)).1 =
      { s with commands := command :: s.commands } := by
    rw [P2pRpc.pass, if_neg fun h => h.2 htest]
    rfl
  rw [hpass] at hcovered
  exact (covered_iff hs.direct).mp (hcovered command List.mem_cons_self)

theorem authentic_of_covered (hs : Private s) (hc : c.answered = true) (h : call F s c = some s')
    (hcovered : ∀ command ∈ s'.commands, Covered s'.configured command.address) :
    authentic F s c = true := by
  refine List.all_eq_true.mpr fun address haddress => decide_eq_true ?_
  cases c with
  | addPeer peer given answer =>
    cases answer with
    | closed => cases hc
    | reply result =>
      cases h
      exact relayPart_of_pass hs (.addPeer peer given) hcovered haddress
  | listenOn given answer =>
    cases answer with
    | closed => cases hc
    | reply result =>
      cases h
      exact relayPart_of_pass hs (.listen given) hcovered haddress
  | dial given answer =>
    cases answer with
    | closed => cases hc
    | reply result =>
      cases h
      exact relayPart_of_pass hs (.dial given) hcovered haddress
  | configurePrivacyRelay _ _ => cases hc
  | loadPeerCache _ _ => cases hc

/-! ### Whole runs -/

/-- **Relay-private mode.**  Every address passed on names a configured relay; if moreover every address
that does so starts with the multiaddr the relay was configured with, every address passed on is a
configured one or a circuit through it.  A single call leaves it so exactly if it meets this condition. -/
theorem relay_private {listenAddress : Multiaddr} {start : P2pRpc}
    (hstart : P2pRpc.startRelayPrivate listenAddress = .ok start) {calls : List Call}
    (hrun : Runs.run (call F) start calls = some s) :
    (∀ command ∈ s.commands, Names s.privacyRelays command.address) ∧
    (Runs.Meets (call F) (fun t c => authentic F t c = true) start calls →
      ∀ command ∈ s.commands, Covered s.configured command.address) ∧
    ∀ c s', c.answered = true → call F s c = some s' →
      (∀ command ∈ s.commands, Covered s.configured command.address) →
      ((∀ command ∈ s'.commands, Covered s'.configured command.address) ↔ authentic F s c = true) := by
  have hfresh : start = ⟨true, ∅, [], []⟩ := by
    rw [P2pRpc.startRelayPrivate] at hstart
    split at hstart
    · exact (Except.ok.inj hstart).symm
    · cases hstart
  have hprivate : Private start := by
    rw [hfresh]
    exact ⟨rfl, fun _ h => absurd h List.not_mem_nil, fun _ h => absurd h List.not_mem_nil⟩
  have hs : Private s := Runs.run_invariant' (fun _ _ _ ht hcall => private_call ht hcall) hprivate hrun
  refine ⟨hs.named, fun hmeets => ?_, fun c s' hc hcall hcovered => ?_⟩
  · refine (Runs.run_invariant (I := fun t => Private t ∧
      ∀ command ∈ t.commands, Covered t.configured command.address) ?_ calls start s ⟨hprivate, ?_⟩
      hmeets hrun).2
    · rintro t c t' ⟨ht, hcovered⟩ hauthentic hcall
      exact ⟨private_call ht hcall, covered_call ht hcovered hauthentic hcall⟩
    · rw [hfresh]
      exact fun _ h => absurd h List.not_mem_nil
  · exact ⟨authentic_of_covered hs hc hcall, fun hauthentic => covered_call hs hcovered hauthentic hcall⟩

/-! ### Sample runs -/

/-- A relay, and the swarm that takes every command. -/
def sampleRelay : Multiaddr := [.ip4 10 0 0 1, .other "udp/4001", .other "quic-v1", .p2p ⟨[1]⟩]

def taken : Answer := .reply (.ok ())

/-- A cache with one entry, a peer behind the relay. -/
def sampleFormat : CacheFormat where
  entries _ := .ok [("peer", "address")]
  peer _ := .ok ⟨[3]⟩
  address _ := .ok (sampleRelay ++ [.p2pCircuit, .p2p ⟨[3]⟩])

/-- An endpoint on its loopback address. -/
def sampleStart : P2pRpc := ⟨true, ∅, [], []⟩

theorem circuits_are_covered : ∃ s, Runs.run (call sampleFormat) sampleStart
    [.configurePrivacyRelay sampleRelay taken, .listenOn (sampleRelay ++ [.p2pCircuit]) taken,
      .dial (sampleRelay ++ [.p2pCircuit, .p2p ⟨[2]⟩]) taken, .loadPeerCache (some []) fun _ => taken] =
        some s ∧
    s.commands.length = 4 ∧ ∀ command ∈ s.commands, Covered s.configured command.address := by
  have heval : (Runs.run (Runs.guarded (call sampleFormat) (authentic sampleFormat)) sampleStart
      [.configurePrivacyRelay sampleRelay taken, .listenOn (sampleRelay ++ [.p2pCircuit]) taken,
        .dial (sampleRelay ++ [.p2pCircuit, .p2p ⟨[2]⟩]) taken,
        .loadPeerCache (some []) fun _ => taken]).map (fun s => s.commands.length) = some 4 := by
    decide +kernel
  obtain ⟨s, hguarded, hlength⟩ := Option.map_eq_some_iff.mp heval
  obtain ⟨hmeets, hrun⟩ := Runs.run_guarded _ _ s hguarded
  have hstart : P2pRpc.startRelayPrivate [.ip4 127 0 0 1, .other "udp/0", .other "quic-v1"] =
      .ok sampleStart := rfl
  exact ⟨s, hrun, hlength, (relay_private hstart hrun).2.1 hmeets⟩

/-- **A borrowed peer.**  An address of somebody else that ends in the peer of the relay is dialled, though
no such address was configured. -/
theorem borrowed_peer_is_dialled : ∃ s, Runs.run (call sampleFormat) sampleStart
    [.configurePrivacyRelay sampleRelay taken,
      .dial [.ip4 203 0 113 9, .other "tcp/443", .p2p ⟨[1]⟩] taken] = some s ∧
    .dial [.ip4 203 0 113 9, .other "tcp/443", .p2p ⟨[1]⟩] ∈ s.commands ∧
    ¬ Covered s.configured [.ip4 203 0 113 9, .other "tcp/443", .p2p ⟨[1]⟩] := by
  have heval : (Runs.run (call sampleFormat) sampleStart [.configurePrivacyRelay sampleRelay taken,
      .dial [.ip4 203 0 113 9, .other "tcp/443", .p2p ⟨[1]⟩] taken]).map
        (fun s => (s.commands, s.configured)) =
      some ([.dial [.ip4 203 0 113 9, .other "tcp/443", .p2p ⟨[1]⟩], .dial sampleRelay],
        [sampleRelay]) := by
    decide +kernel
  obtain ⟨s, hrun, hs⟩ := Option.map_eq_some_iff.mp heval
  obtain ⟨hcommands, hconfigured⟩ := Prod.mk.inj hs
  refine ⟨s, hrun, ?_, ?_⟩
  · rw [hcommands]
    exact List.mem_cons_self
  · rw [hconfigured, covered_iff (by decide)]
    decide

end Peerless.Network
