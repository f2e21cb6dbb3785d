import Peerless.Lib.Pipeline
import Peerless.Lib.Runs
import Peerless.Onion.Duplex
import Peerless.Onion.RoundTrip

/-!
# The way back

Responses travel from any relay of a circuit to the initiator.  Every relay keeps one counter for the
responses it starts and those it wraps, so the layers of one cell carry different numbers; the links are
queues, and the initiator has one receiver per relay.

* `reverse_path` — whatever the order of the calls, every cell opens layer by layer to the
  response that was started.
-/

namespace Peerless.Onion

open Text Wire Pipeline

/-! ### The initiator -/

variable (A : Aead)

/-- The initiator opens a cell with its receivers in turn, as long as a layer hides another cell. -/
def openThrough (now : ℕ → UInt64) :
    ℕ → ℕ → WireCell → (ℕ → HopReceiver) → (ℕ → HopReceiver) × List (Except OnionError OpenedLayer)
  | 0, _, _, receivers => (receivers, [])
  | left + 1, hop, cell, receivers =>
    let opened := (receivers hop).open A cell (now hop)
    let receivers := Function.update receivers hop opened.1
    match opened.2 with
    | .ok (.forward inner) =>
      let rest := openThrough now left (hop + 1) inner receivers
      (rest.1, .ok (.forward inner) :: rest.2)
    | result => (receivers, [result])

/-- A receiver after a layer with a number, or after none. -/
def HopReceiver.committed (r : HopReceiver) : Option UInt64 → HopReceiver
  | none => r
  | some q => { r with replay := r.replay.commit q }

/-- The results of opening a response, layer by layer. -/
def Unwrapped (x : Response) (results : List (Except OnionError OpenedLayer)) : Prop :=
  ∃ inners : List WireCell, inners.length = x.origin ∧
    results = inners.map (fun cell => .ok (.forward cell)) ++ [.ok (.terminal x.cellType x.payload)]

variable {A} {keys : ℕ → HopKeys}

/-- A receiver that lets a number pass before the expiry of its keys. -/
structure Admits (keys : ℕ → HopKeys) (now : ℕ → UInt64) (receivers : ℕ → HopReceiver) (hop : ℕ)
    (q : UInt64) : Prop where
  key : (receivers hop).keys = keys hop
  direction : (receivers hop).expectedDirection = .reverse
  check : (receivers hop).replay.check q = .ok ()
  live : now hop < (keys hop).expiresAt

variable {x : Response} {hop : ℕ} {q : UInt64} {cell : WireCell}

theorem Admits.open (hA : A.Correct) {now : ℕ → UInt64} {receivers : ℕ → HopReceiver}
    (hhere : Admits keys now receivers hop q) {qs : List UInt64}
    (hcell : Carries A keys x hop (q :: qs) cell) :
    ∃ opened, (receivers hop).open A cell (now hop) =
        ((receivers hop).committed (some q), .ok opened) ∧
      match qs with
      | [] => opened = .terminal x.cellType x.payload
      | q' :: qs => ∃ inner, opened = .forward inner ∧ Carries A keys x (hop + 1) (q' :: qs) inner := by
  obtain ⟨opened, hopened, hinside⟩ := open_layered hA hcell hhere.check hhere.live
  refine ⟨opened, ?_, hinside⟩
  rw [← hhere.key, ← hhere.direction] at hopened
  rw [HopReceiver.open, hopened]
  rfl

/-- **The receivers take all layers off**: by induction on the layers inside. -/
theorem openThrough_carries (hA : A.Correct) {now : ℕ → UInt64} :
    ∀ (qs : List UInt64) (q : UInt64) (left hop : ℕ) (cell : WireCell) (receivers : ℕ → HopReceiver),
      Carries A keys x hop (q :: qs) cell → qs.length < left →
      (∀ i p, (q :: qs)[i]? = some p → Admits keys now receivers (hop + i) p) →
      (∃ inners : List WireCell, inners.length = qs.length ∧
        (openThrough A now left hop cell receivers).2 =
          inners.map (fun cell => .ok (.forward cell)) ++ [.ok (.terminal x.cellType x.payload)]) ∧
      ∀ m, (openThrough A now left hop cell receivers).1 m =
        if m < hop then receivers m else (receivers m).committed (q :: qs)[m - hop]? := by
  intro qs
  induction qs with
  | nil =>
    intro q left hop cell receivers hcell hleft hadmits
    obtain ⟨left, rfl⟩ := Nat.exists_eq_succ_of_ne_zero (Nat.ne_of_gt hleft)
    have hhere : Admits keys now receivers hop q := hadmits 0 q rfl
    obtain ⟨opened, hopen, rfl⟩ := hhere.open hA hcell
    rw [openThrough]
    simp only [hopen]
    refine ⟨⟨[], rfl, rfl⟩, fun m => ?_⟩
    by_cases hm : m = hop
    · subst hm
      simp
    · rw [Function.update_of_ne hm]
      split
      · rfl
      · obtain ⟨k, hk⟩ := Nat.exists_eq_succ_of_ne_zero (show m - hop ≠ 0 by omega)
        rw [hk]
        rfl
  | cons q' qs ih =>
    intro q left hop cell receivers hcell hleft hadmits
    obtain ⟨left, rfl⟩ := Nat.exists_eq_succ_of_ne_zero (Nat.ne_zero_of_lt hleft)
    have hhere : Admits keys now receivers hop q := hadmits 0 q rfl
    obtain ⟨opened, hopen, inner, rfl, hinner⟩ := hhere.open hA hcell
    have hlater : ∀ i p, (q' :: qs)[i]? = some p →
        Admits keys now (Function.update receivers hop ((receivers hop).committed (some q)))
          (hop + 1 + i) p := by
      intro i p hp
      have hnext := hadmits (i + 1) p hp
      rw [show hop + (i + 1) = hop + 1 + i by omega] at hnext
      have hsame : Function.update receivers hop ((receivers hop).committed (some q)) (hop + 1 + i) =
          receivers (hop + 1 + i) := Function.update_of_ne (by omega) _ _
      exact ⟨hsame ▸ hnext.key, hsame ▸ hnext.direction, hsame ▸ hnext.check, hnext.live⟩
    obtain ⟨⟨inners, hlength, hresults⟩, hreceivers⟩ := ih q' left (hop + 1) inner _ hinner
      (Nat.lt_of_succ_lt_succ hleft) hlater
    rw [openThrough]
    simp only [hopen]
    refine ⟨⟨inner :: inners, congrArg (· + 1) hlength, by rw [hresults]; rfl⟩, fun m => ?_⟩
    rw [hreceivers]
    rcases Nat.lt_trichotomy m hop with hlt | rfl | hgt
    · rw [if_pos hlt, if_pos (Nat.lt_succ_of_lt hlt), Function.update_of_ne (Nat.ne_of_lt hlt)]
    · rw [if_pos (Nat.lt_succ_self m), if_neg (Nat.lt_irrefl m), Function.update_self, Nat.sub_self]
      rfl
    · rw [if_neg (by omega), if_neg (by omega), Function.update_of_ne (Nat.ne_of_gt hgt),
        show m - hop = m - (hop + 1) + 1 by omega]
      rfl

/-! ### The system -/

/-- A cell on a link, with the response it carries and the numbers of its layers. -/
structure Flight where
  response : Response
  numbers : List UInt64
  cell : WireCell

/-- The relays, what each of them has emitted and the next has not taken, the initiator's receivers and
what it has opened. -/
structure ReversePath where
  relays : ℕ → HopDuplex
  links : ℕ → List Flight
  receivers : ℕ → HopReceiver
  deliveries : List (Response × List (Except OnionError OpenedLayer))

/-- A fresh circuit. -/
def ReversePath.start (keys : ℕ → HopKeys) : ReversePath where
  relays i := HopDuplex.new (keys i)
  links _ := []
  receivers i := HopReceiver.new (keys i) .reverse
  deliveries := []

/-- A relay starts a response, a relay wraps the next cell of the link behind it, or the initiator opens
the next cell, each receiver at its own time. -/
inductive ReverseCall where
  | sealTerminal (hop : ℕ) (cellType : CellType) (payload : Bytes)
  | wrap (hop : ℕ)
  | open (now : ℕ → UInt64)

/-- The relay after a call and the cell it emitted last on its link. -/
def ReversePath.emit (s : ReversePath) (hop : ℕ) (relay : HopDuplex) (f : Flight) : ReversePath :=
  { s with relays := Function.update s.relays hop relay
           links := Function.update s.links hop (s.links hop ++ [f]) }

/-- A link without its first cell. -/
def ReversePath.take (s : ReversePath) (link : ℕ) (rest : List Flight) : ReversePath :=
  { s with links := Function.update s.links link rest }

variable (A)

/-- One call in a circuit of `n` relays; `none` if there is no cell to take or the call fails. -/
def ReversePath.step (n : ℕ) (s : ReversePath) : ReverseCall → Option ReversePath
  | .sealTerminal hop cellType payload =>
    if hop < n then
      match (s.relays hop).sealTerminal A .reverse cellType payload with
      | (_, .error _) => none
      | (relay, .ok cell) =>
        some (s.emit hop relay
          ⟨⟨hop, cellType, payload⟩, [(s.relays hop).nextReverseSequence], cell⟩)
    else none
  | .wrap hop =>
    match s.links (hop + 1) with
    | [] => none
    | f :: rest =>
      match (s.relays hop).wrap A .reverse f.cell with
      | (_, .error _) => none
      | (relay, .ok cell) =>
        some ((s.take (hop + 1) rest).emit hop relay
          ⟨f.response, (s.relays hop).nextReverseSequence :: f.numbers, cell⟩)
  | .open now =>
    match s.links 0 with
    | [] => none
    | f :: rest =>
      let opened := openThrough A now n 0 f.cell s.receivers
      some { s.take 0 rest with
        receivers := opened.1, deliveries := s.deliveries ++ [(f.response, opened.2)] }

variable {A}

/-! ### The numbers a receiver will meet -/

/-- The number of the layer for hop `i` in a cell on link `m`. -/
def Flight.numberAt (i m : ℕ) (f : Flight) : Option ℕ := (f.numbers[i - m]?).map UInt64.toNat

/-- The numbers for hop `i` on link `m`. -/
def numbersOn (links : ℕ → List Flight) (i m : ℕ) : List ℕ := (links m).filterMap (Flight.numberAt i m)

/-- The numbers for hop `i` that relay `i` has given and the initiator has not met. -/
def upcoming (links : ℕ → List Flight) (i : ℕ) : List ℕ := flow (numbersOn links i) i

variable {links : ℕ → List Flight}

theorem numbersOn_update_ne {link m : ℕ} (h : m ≠ link) (l : List Flight) (i : ℕ) :
    numbersOn (Function.update links link l) i m = numbersOn links i m := by
  rw [numbersOn, Function.update_of_ne h]
  rfl

theorem numbersOn_update_self (links : ℕ → List Flight) (link : ℕ) (l : List Flight) (i : ℕ) :
    numbersOn (Function.update links link l) i link = l.filterMap (Flight.numberAt i link) := by
  rw [numbersOn, Function.update_self]

theorem filterMap_concat {α γ : Type*} (p : α → Option γ) (l : List α) (a : α) :
    (l ++ [a]).filterMap p = l.filterMap p ++ (p a).toList := by
  rw [List.filterMap_append]
  cases hpa : p a <;> simp [hpa]

/-- A response started at `hop` is numbered for `hop` alone. -/
theorem upcoming_start (links : ℕ → List Flight) (i : ℕ) :
    upcoming (Function.update links hop (links hop ++ [⟨x, [q], cell⟩])) i =
      upcoming links i ++ if i = hop then [q.toNat] else [] := by
  have hon : numbersOn (Function.update links hop (links hop ++ [⟨x, [q], cell⟩])) i hop =
      numbersOn links i hop ++ (Flight.numberAt i hop ⟨x, [q], cell⟩).toList := by
    rw [numbersOn_update_self, filterMap_concat]
    rfl
  rcases Nat.lt_trichotomy i hop with hlt | rfl | hgt
  · rw [if_neg (Nat.ne_of_lt hlt), List.append_nil]
    exact flow_congr fun m hm => numbersOn_update_ne (by omega) _ _
  · rw [if_pos rfl]
    refine flow_concat (fun m hm => numbersOn_update_ne (Nat.ne_of_lt hm) _ _) ?_
    rw [hon]
    simp [Flight.numberAt]
  · rw [if_neg (Nat.ne_of_gt hgt), List.append_nil]
    refine flow_congr fun m hm => ?_
    by_cases heq : m = hop
    · subst heq
      obtain ⟨k, hk⟩ := Nat.exists_eq_succ_of_ne_zero (show i - m ≠ 0 by omega)
      rw [hon]
      simp [Flight.numberAt, hk]
    · exact numbersOn_update_ne heq _ _

variable {f : Flight} {rest : List Flight}

/-- A wrapped cell keeps its place for the hops behind and is the last one for the relay that wraps. -/
theorem upcoming_wrap (hlink : links (hop + 1) = f :: rest) (i : ℕ) :
    upcoming (Function.update (Function.update links (hop + 1) rest) hop
        (Function.update links (hop + 1) rest hop ++ [⟨f.response, q :: f.numbers, cell⟩])) i =
      upcoming links i ++ if i = hop then [q.toNat] else [] := by
  have hkept : Function.update links (hop + 1) rest hop = links hop :=
    Function.update_of_ne (Nat.ne_of_lt (Nat.lt_succ_self hop)) _ _
  rw [hkept]
  have hsame : ∀ m, m ≠ hop → m ≠ hop + 1 →
      numbersOn (Function.update (Function.update links (hop + 1) rest) hop
        (links hop ++ [⟨f.response, q :: f.numbers, cell⟩])) i m = numbersOn links i m := by
    intro m hm hm'
    rw [numbersOn_update_ne hm, numbersOn_update_ne hm']
  have hhere : numbersOn (Function.update (Function.update links (hop + 1) rest) hop
      (links hop ++ [⟨f.response, q :: f.numbers, cell⟩])) i hop =
        numbersOn links i hop ++ (((q :: f.numbers)[i - hop]?).map UInt64.toNat).toList := by
    rw [numbersOn_update_self, filterMap_concat]
    rfl
  rcases Nat.lt_trichotomy i hop with hlt | rfl | hgt
  · rw [if_neg (Nat.ne_of_lt hlt), List.append_nil]
    exact flow_congr fun m hm => hsame m (by omega) (by omega)
  · rw [if_pos rfl]
    refine flow_concat (fun m hm => hsame m (by omega) (by omega)) ?_
    rw [hhere, Nat.sub_self]
    rfl
  · rw [if_neg (Nat.ne_of_gt hgt), List.append_nil]
    refine flow_pass ?_ hsame hgt
    rw [hhere, numbersOn_update_ne (Nat.succ_ne_self hop), numbersOn_update_self, numbersOn, numbersOn,
      hlink, List.append_assoc, List.filterMap_cons, Flight.numberAt,
      show i - hop = i - (hop + 1) + 1 by omega, List.getElem?_cons_succ]
    cases f.numbers[i - (hop + 1)]? <;> rfl

/-- The cell the initiator opens is the first one for every hop it has a layer for. -/
theorem upcoming_open (hlink : links 0 = f :: rest) (i : ℕ) :
    upcoming links i = (Flight.numberAt i 0 f).toList ++ upcoming (Function.update links 0 rest) i := by
  refine flow_cons ?_ (fun m hm => (numbersOn_update_ne (Nat.ne_of_gt hm) _ _).symm) i
  rw [numbersOn, hlink, numbersOn, Function.update_self, List.filterMap_cons]
  cases Flight.numberAt i 0 f <;> rfl

/-! ### The invariant -/

/-- A cell on a link: it carries its response through the relays up to the origin. -/
structure Flight.Sound (A : Aead) (keys : ℕ → HopKeys) (n link : ℕ) (f : Flight) : Prop where
  carries : Carries A keys f.response link f.numbers f.cell
  layers : f.numbers.length + link = f.response.origin + 1
  origin : f.response.origin < n

/-- Every receiver awaits the first of the numbers that are on their way to it, and the last of them is
the latest its relay has given. -/
structure Flowing (A : Aead) (keys : ℕ → HopKeys) (n : ℕ) (s : ReversePath) : Prop where
  relay : ∀ i, (s.relays i).keys = keys i
  receiver : ∀ i, (s.receivers i).keys = keys i ∧ (s.receivers i).expectedDirection = .reverse
  flights : ∀ m, ∀ f ∈ s.links m, f.Sound A keys n m
  order : ∀ i, ∃ a, (s.receivers i).replay.Awaits a ∧
    Counted a (upcoming s.links i) (s.relays i).nextReverseSequence.toNat
  delivered : ∀ d ∈ s.deliveries, Unwrapped d.1 d.2

theorem upcoming_nil (i : ℕ) : upcoming (fun _ => []) i = [] := by
  induction i with
  | zero => rfl
  | succ i ih =>
    have hflow : flow (fun _ : ℕ => ([] : List ℕ)) i = [] := ih
    show flow (fun _ : ℕ => ([] : List ℕ)) i ++ [] = []
    rw [hflow]
    rfl

theorem flowing_start (n : ℕ) : Flowing A keys n (ReversePath.start keys) where
  relay _ := rfl
  receiver _ := ⟨rfl, rfl⟩
  flights m f hf := absurd hf List.not_mem_nil
  order i := by
    refine ⟨0, ReplayWindow.awaits_empty, ?_⟩
    show Counted 0 (upcoming (fun _ => []) i) 0
    rw [upcoming_nil]
    rfl
  delivered d hd := absurd hd List.not_mem_nil

variable {n : ℕ} {s : ReversePath}

/-- A relay that emits a sound cell under its next number. -/
theorem Flowing.emit {t : ReversePath} (h : Flowing A keys n s) (hsound : f.Sound A keys n hop)
    (hnext : (s.relays hop).nextReverseSequence.toNat + 1 < UInt64.size)
    (hkept : t.relays = s.relays ∧ t.receivers = s.receivers ∧ t.deliveries = s.deliveries)
    (hlinks : ∀ m, ∀ g ∈ t.links m, g ∈ s.links m)
    (hupcoming : ∀ i, upcoming (t.emit hop ((s.relays hop).advanced .reverse) f).links i =
      upcoming s.links i ++ if i = hop then [(s.relays hop).nextReverseSequence.toNat] else []) :
    Flowing A keys n (t.emit hop ((s.relays hop).advanced .reverse) f) := by
  obtain ⟨hrelays, hreceivers, hdeliveries⟩ := hkept
  refine ⟨fun i => ?_, fun i => ?_, fun m g hg => ?_, fun i => ?_, fun d hd => ?_⟩
  · show (Function.update t.relays hop ((s.relays hop).advanced .reverse) i).keys = keys i
    rw [hrelays]
    by_cases hi : i = hop
    · subst hi
      rw [Function.update_self]
      exact h.relay i
    · rw [Function.update_of_ne hi]
      exact h.relay i
  · show (t.receivers i).keys = _ ∧ (t.receivers i).expectedDirection = _
    rw [hreceivers]
    exact h.receiver i
  · have hg : g ∈ Function.update t.links hop (t.links hop ++ [f]) m := hg
    by_cases hm : m = hop
    · subst hm
      rw [Function.update_self, List.mem_append, List.mem_singleton] at hg
      rcases hg with hg | rfl
      · exact h.flights m g (hlinks m g hg)
      · exact hsound
    · rw [Function.update_of_ne hm] at hg
      exact h.flights m g (hlinks m g hg)
  · obtain ⟨a, hawaits, hcounted⟩ := h.order i
    refine ⟨a, hreceivers ▸ hawaits, ?_⟩
    rw [hupcoming]
    show Counted a _ (Function.update t.relays hop _ i).nextReverseSequence.toNat
    rw [hrelays]
    by_cases hi : i = hop
    · subst hi
      rw [if_pos rfl, Function.update_self]
      have hone : ((s.relays i).nextReverseSequence + 1).toNat =
          (s.relays i).nextReverseSequence.toNat + 1 := by
        rw [UInt64.toNat_add]
        exact Nat.mod_eq_of_lt hnext
      show Counted a _ ((s.relays i).nextReverseSequence + 1).toNat
      rw [hone]
      exact hcounted.concat
    · rw [if_neg hi, List.append_nil, Function.update_of_ne hi]
      exact hcounted
  · exact h.delivered d (hdeliveries ▸ hd)

theorem Flowing.open (hA : A.Correct) (h : Flowing A keys n s) (hlink : s.links 0 = f :: rest)
    {now : ℕ → UInt64} (hlive : ∀ i, i < n → now i < (keys i).expiresAt) :
    Flowing A keys n { s.take 0 rest with
      receivers := (openThrough A now n 0 f.cell s.receivers).1
      deliveries := s.deliveries ++ [(f.response, (openThrough A now n 0 f.cell s.receivers).2)] } := by
  have hsound := h.flights 0 f (hlink ▸ List.mem_cons_self)
  have hcount := hsound.layers
  have horigin := hsound.origin
  -- the number a receiver meets is the one it awaits
  have hawaits : ∀ i q, f.numbers[i]? = some q → (s.receivers i).replay.Awaits q.toNat := by
    intro i q hq
    obtain ⟨a, hawaits, hcounted⟩ := h.order i
    rw [upcoming_open hlink i, Flight.numberAt, Nat.sub_zero, hq] at hcounted
    have hqa : q.toNat = a := hcounted.1
    rw [hqa]
    exact hawaits
  obtain ⟨q, qs, hnumbers⟩ : ∃ q qs, f.numbers = q :: qs :=
    List.exists_cons_of_length_pos (by omega)
  have hcarries : Carries A keys f.response 0 (q :: qs) f.cell := hnumbers ▸ hsound.carries
  rw [hnumbers, List.length_cons] at hcount
  have hadmits : ∀ i p, (q :: qs)[i]? = some p → Admits keys now s.receivers (0 + i) p := by
    intro i p hp
    rw [Nat.zero_add]
    have hi : i < n := by
      have hlt := (List.getElem?_eq_some_iff.mp hp).1
      rw [List.length_cons] at hlt
      omega
    exact ⟨(h.receiver i).1, (h.receiver i).2, (hawaits i p (hnumbers ▸ hp)).check, hlive i hi⟩
  obtain ⟨⟨inners, hlength, hresults⟩, hreceivers⟩ :=
    openThrough_carries hA qs q n 0 f.cell s.receivers hcarries (by omega) hadmits
  have hcommitted : ∀ i, (openThrough A now n 0 f.cell s.receivers).1 i =
      (s.receivers i).committed f.numbers[i]? := by
    intro i
    rw [hreceivers i, if_neg (Nat.not_lt_zero i), hnumbers]
    rfl
  refine ⟨h.relay, fun i => ?_, fun m g hg => ?_, fun i => ?_, fun d hd => ?_⟩
  · show ((openThrough A now n 0 f.cell s.receivers).1 i).keys = _ ∧
      ((openThrough A now n 0 f.cell s.receivers).1 i).expectedDirection = _
    rw [hcommitted]
    cases f.numbers[i]? <;> exact h.receiver i
  · have hg : g ∈ Function.update s.links 0 rest m := hg
    by_cases hm : m = 0
    · subst hm
      rw [Function.update_self] at hg
      exact h.flights 0 g (hlink ▸ List.mem_cons_of_mem _ hg)
    · rw [Function.update_of_ne hm] at hg
      exact h.flights m g hg
  · obtain ⟨a, ha, hcounted⟩ := h.order i
    rw [upcoming_open hlink i, Flight.numberAt, Nat.sub_zero] at hcounted
    show ∃ a, ((openThrough A now n 0 f.cell s.receivers).1 i).replay.Awaits a ∧
      Counted a (upcoming (Function.update s.links 0 rest) i) _
    rw [hcommitted]
    cases hq : f.numbers[i]? with
    | none =>
      rw [hq] at hcounted
      exact ⟨a, ha, hcounted⟩
    | some p =>
      rw [hq] at hcounted
      refine ⟨p.toNat + 1, (hawaits i p hq).commit, ?_⟩
      obtain ⟨hp, hrest⟩ : p.toNat = a ∧ Counted (a + 1) _ _ := hcounted
      rw [hp]
      exact hrest
  · rcases List.mem_append.mp hd with hd | hd
    · exact h.delivered d hd
    · rw [List.mem_singleton] at hd
      subst hd
      have hinners : inners.length = f.response.origin := by omega
      exact ⟨inners, hinners, hresults⟩

/-- No receiver of the circuit is asked after the expiry of its keys. -/
def ReverseCall.Live (keys : ℕ → HopKeys) (n : ℕ) : ReverseCall → Prop
  | .open now => ∀ i, i < n → now i < (keys i).expiresAt
  | _ => True

theorem flowing_step (hA : A.Correct) {s' : ReversePath} {call : ReverseCall} (h : Flowing A keys n s)
    (hlive : call.Live keys n) (hstep : s.step A n call = some s') : Flowing A keys n s' := by
  cases call with
  | sealTerminal hop cellType payload =>
    rw [ReversePath.step] at hstep
    split at hstep
    · rename_i hhop
      split at hstep
      · cases hstep
      · rename_i relay cell hseal
        obtain ⟨⟨compact, hcompact, hcell⟩, hnext, rfl⟩ := HopDuplex.sealLayer_ok_iff.mp hseal
        rw [h.relay hop] at hcompact
        cases hstep
        exact h.emit ⟨⟨compact, hcompact, hcell⟩, Nat.add_comm 1 hop, hhop⟩ hnext ⟨rfl, rfl, rfl⟩
          (fun m g hg => hg) (upcoming_start s.links)
    · cases hstep
  | wrap hop =>
    rw [ReversePath.step] at hstep
    split at hstep
    · cases hstep
    · rename_i f rest hlink
      split at hstep
      · cases hstep
      · rename_i relay cell hwrap
        have hsound := h.flights (hop + 1) f (hlink ▸ List.mem_cons_self)
        have hlayers := hsound.layers
        obtain ⟨q, qs, hnumbers⟩ : ∃ q qs, f.numbers = q :: qs := by
          obtain ⟨compact, hcompact, _⟩ := hsound.carries
          cases hnumbers : f.numbers with
          | nil =>
            rw [hnumbers] at hcompact
            cases hcompact
          | cons q qs => exact ⟨q, qs, rfl⟩
        have hcarries := hnumbers ▸ hsound.carries
        obtain ⟨hwrapped, hnext, rfl⟩ := hcarries.wrap hA (h.relay hop) hwrap
        cases hstep
        refine h.emit ⟨hnumbers ▸ hwrapped, ?_, hsound.origin⟩ hnext ⟨rfl, rfl, rfl⟩ ?_
          (upcoming_wrap hlink)
        · show (f.numbers.length + 1) + hop = f.response.origin + 1
          omega
        · intro m g hg
          have hg : g ∈ Function.update s.links (hop + 1) rest m := hg
          by_cases hm : m = hop + 1
          · subst hm
            rw [Function.update_self] at hg
            exact hlink ▸ List.mem_cons_of_mem _ hg
          · rw [Function.update_of_ne hm] at hg
            exact hg
  | «open» now =>
    rw [ReversePath.step] at hstep
    split at hstep
    · cases hstep
    · rename_i f rest hlink
      cases hstep
      exact h.open hA hlink hlive

/-- **The way back through independent relays.**  Over any order of calls that succeed, each cell the
initiator opens is a cell to forward at every hop before the origin and the response at the origin. -/
theorem reverse_path (hA : A.Correct) {n : ℕ} {calls : List ReverseCall} {s : ReversePath}
    (hlive : ∀ call ∈ calls, call.Live keys n)
    (hrun : Runs.run (ReversePath.step A n) (ReversePath.start keys) calls = some s) :
    ∀ d ∈ s.deliveries, Unwrapped d.1 d.2 := by
  have hmeets : Runs.Meets (ReversePath.step A n) (fun _ call => True ∧ call.Live keys n)
      (ReversePath.start keys) calls :=
    Runs.Meets.and_forall calls _ (Runs.meets_true calls _) hlive
  have hflowing := Runs.run_invariant (fun s call s' h hok hs => flowing_step hA h hok.2 hs) calls _ _
    (flowing_start n) hmeets hrun
  exact hflowing.delivered

/-- Three relays answer; the second starts its response while the third's is on the way. -/
def threeResponses : List ReverseCall :=
  [.sealTerminal 2 .response [7], .wrap 1, .sealTerminal 1 .data [8], .wrap 0, .sealTerminal 0 .data [],
    .open fun _ => 99, .wrap 0, .open fun _ => 99, .open fun _ => 99]

theorem threeResponses_unwrapped :
    ∃ s, Runs.run (ReversePath.step transparent 3)
        (ReversePath.start fun i => sampleKeys (UInt8.ofNat i)) threeResponses = some s ∧
      s.deliveries.map Prod.fst = [⟨2, .response, [7]⟩, ⟨0, .data, []⟩, ⟨1, .data, [8]⟩] ∧
      ∀ d ∈ s.deliveries, Unwrapped d.1 d.2 := by
  have hlog : (Runs.run (ReversePath.step transparent 3)
      (ReversePath.start fun i => sampleKeys (UInt8.ofNat i)) threeResponses).map
        (fun s => s.deliveries.map Prod.fst) =
      some [⟨2, .response, [7]⟩, ⟨0, .data, []⟩, ⟨1, .data, [8]⟩] := by
    decide +kernel
  obtain ⟨s, hrun, hdeliveries⟩ := Option.map_eq_some_iff.mp hlog
  refine ⟨s, hrun, hdeliveries, reverse_path transparent_correct ?_ hrun⟩
  intro call hcall
  simp only [threeResponses, List.mem_cons, List.not_mem_nil, or_false] at hcall
  rcases hcall with rfl | rfl | rfl | rfl | rfl | rfl | rfl | rfl | rfl
  all_goals first | exact trivial | exact fun i _ => (by decide : (99 : UInt64) < 100)

end Peerless.Onion
