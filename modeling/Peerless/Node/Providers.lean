import Peerless.Node.Verified
import Peerless.Storage.FileCas

/-!
# Fetching from providers

`fetch_p2p` asks the providers of a content one after the other, in the order of a hash set, unless the
content is in the node's own store.  The distributed table and the providers are a world with a state of its
own.

* `fetched_verified` — whatever the providers answer, a content is returned only if it has the
  id that was asked for, and then it is in the store;
* `one_provider_suffices` — one provider that serves the content is enough, wherever it stands.
-/

namespace Peerless.Node

open Text HashMap Inquiry Peerless.Core Identity Protocol Storage
open Network (PeerId)

variable {P : Primitives} {σ : Type}

/-- The text of an id: the key it is provided under. -/
def providerKey (id : ContentId) : Bytes := utf8 "sha256:" ++ hexDigest id

inductive FetchError where
  | p2p (reason : String)
  | storage (e : CasError)
  deriving DecidableEq

/-- A put of a content that could not be read: there was no file, and now there is. -/
theorem put_missing {files stored : Cas} {bytes : Bytes} {writable : Bool} {key : ContentId} {err : CasError}
    (hget : files.get P (ContentId.of P bytes) = .error err)
    (hput : files.put P bytes writable = (stored, .ok key)) :
    files.lookup (ContentId.of P bytes) = none ∧ files.insert (ContentId.of P bytes) bytes = stored := by
  rw [Cas.put] at hput
  split at hput
  · rename_i found hlookup
    split at hput
    · rename_i hverify
      have hgood : files.get P (ContentId.of P bytes) = .ok found := by
        rw [Cas.get, hlookup]
        exact if_pos hverify
      cases hget.symm.trans hgood
    · cases hput
  · rename_i hnone
    split at hput
    · exact ⟨hnone, congrArg Prod.fst hput⟩
    · cases hput

namespace Surroundings

variable (W : Surroundings P σ) (own : NodeIdentity P) (codec : MessageCodec) (id : ContentId)

/-- A turn of the loop: a content that has the id. -/
def offer (peer : PeerId) (s : σ) : Option Bytes × σ :=
  match answer ((W.requester own codec peer).exchange (.getContent id)) s with
  | (.ok (.content found bytes), s) => (if found = id ∧ id.verify P bytes then some bytes else none, s)
  | (_, s) => (none, s)

/-- The loop over the providers. -/
def askProviders : List PeerId → σ → Option Bytes × σ
  | [], s => (none, s)
  | peer :: peers, s =>
    match W.offer own codec id peer s with
    | (some bytes, s) => (some bytes, s)
    | (none, s) => askProviders peers s

/-- `PeerlessNode::fetch_p2p`. -/
def fetchP2p (findProviders : Bytes → σ → Except String (List PeerId) × σ) (writable : Bool) (files : Cas)
    (s : σ) : Except FetchError Bytes × Cas × σ :=
  match files.get P id with
  | .ok bytes => (.ok bytes, files, s)
  | .error _ =>
    match findProviders (providerKey id) s with
    | (.error reason, s) => (.error (.p2p reason), files, s)
    | (.ok peers, s) =>
      match W.askProviders own codec id peers s with
      | (none, s) => (.error (.storage (.notFound id)), files, s)
      | (some bytes, s) =>
        match files.put P bytes writable with
        | (files, .error err) => (.error (.storage err), files, s)
        | (files, .ok _) => (.ok bytes, files, s)

variable {W own codec id}

theorem offer_some {peer : PeerId} {s : σ} {bytes : Bytes} (h : (W.offer own codec id peer s).1 = some bytes) :
    id = ContentId.of P bytes := by
  unfold offer at h
  split at h
  · split at h
    · rename_i hok
      cases h
      exact of_decide_eq_true hok.2
    · cases h
  · cases h

theorem askProviders_some {bytes : Bytes} : ∀ (peers : List PeerId) (s : σ),
    (W.askProviders own codec id peers s).1 = some bytes → id = ContentId.of P bytes := by
  intro peers
  induction peers with
  | nil => intro s h; cases h
  | cons peer peers ih =>
    intro s h
    rw [askProviders] at h
    split at h
    · rename_i found s' hoffer
      cases h
      exact offer_some (congrArg Prod.fst hoffer)
    · exact ih _ h

theorem askProviders_serves {peer : PeerId} (hserves : ∀ s, (W.offer own codec id peer s).1 ≠ none) :
    ∀ (peers : List PeerId) (s : σ), peer ∈ peers → (W.askProviders own codec id peers s).1 ≠ none := by
  intro peers
  induction peers with
  | nil => intro s h; cases h
  | cons first peers ih =>
    intro s hmem
    rw [askProviders]
    split
    · exact Option.some_ne_none _
    · rename_i s' hoffer
      rcases List.mem_cons.mp hmem with rfl | hmem
      · exact absurd (congrArg Prod.fst hoffer) (hserves s)
      · exact ih s' hmem

variable {find : Bytes → σ → Except String (List PeerId) × σ} {writable : Bool} {files files' : Cas}
  {s s' : σ} {bytes : Bytes}

/-- **What is fetched has the id**: it is in the store afterwards, as nothing else has changed there, and
the next fetch asks nobody.  A damaged file under the id is never replaced. -/
theorem fetched_verified (h : W.fetchP2p own codec id find writable files s = (.ok bytes, files', s')) :
    id = ContentId.of P bytes ∧ (files.lookup id = none ∨ files.get P id = .ok bytes) ∧
      (∀ other, files'.lookup other = if other = id then some bytes else files.lookup other) ∧
      ∀ (W' : Surroundings P σ) find' writable' t,
        W'.fetchP2p own codec id find' writable' files' t = (.ok bytes, files', t) := by
  have hagain : files'.get P id = .ok bytes → ∀ (W' : Surroundings P σ) find' writable' t,
      W'.fetchP2p own codec id find' writable' files' t = (.ok bytes, files', t) := by
    intro hget W' find' writable' t
    rw [fetchP2p, hget]
  unfold fetchP2p at h
  split at h
  · rename_i found hget
    obtain ⟨hfound, hrest⟩ := Prod.mk.inj h
    cases hfound
    obtain ⟨rfl, rfl⟩ := Prod.mk.inj hrest
    obtain ⟨hlookup, hid⟩ := Cas.get_ok hget
    refine ⟨hid, .inr hget, fun other => ?_, hagain hget⟩
    split
    · subst other
      exact hlookup
    · rfl
  rename_i err hget
  split at h
  · cases h
  split at h
  · cases h
  rename_i found s₂ hask
  obtain rfl := askProviders_some _ _ (congrArg Prod.fst hask)
  split at h
  · cases h
  rename_i stored key hput
  obtain ⟨hfound, hrest⟩ := Prod.mk.inj h
  cases hfound
  obtain ⟨rfl, rfl⟩ := Prod.mk.inj hrest
  obtain ⟨hnone, rfl⟩ := put_missing hget hput
  refine ⟨rfl, .inl hnone, fun other => ?_, hagain ?_⟩
  · split
    · subst other
      exact AList.lookup_insert _
    · exact AList.lookup_insert_ne ‹_›
  · rw [Cas.get, AList.lookup_insert]
    exact if_pos (decide_eq_true rfl)

/-- **One provider is enough**: a provider that serves the content whenever it is asked is reached, whatever
the others answer and wherever it stands among them, unless a damaged file is in the way. -/
theorem one_provider_suffices {peer : PeerId} {peers : List PeerId} (hnone : files.lookup id = none)
    (hfind : find (providerKey id) s = (.ok peers, s')) (hmem : peer ∈ peers)
    (hserves : ∀ t, (W.offer own codec id peer t).1 ≠ none) :
    ∃ bytes files' t, W.fetchP2p own codec id find true files s = (.ok bytes, files', t) ∧
      id = ContentId.of P bytes := by
  have hget : files.get P id = .error (.notFound id) := by
    rw [Cas.get, hnone]
  obtain ⟨bytes, hsome⟩ := Option.ne_none_iff_exists'.mp (askProviders_serves hserves peers s' hmem)
  have hid := askProviders_some peers s' hsome
  have hput : files.put P bytes true = (files.insert id bytes, .ok id) := by
    rw [Cas.put, ← hid, hnone]
    rfl
  have hask : W.askProviders own codec id peers s' = (some bytes, _) := Prod.ext hsome rfl
  refine ⟨bytes, files.insert id bytes, (W.askProviders own codec id peers s').2, ?_, hid⟩
  rw [fetchP2p, hget]
  dsimp only
  rw [hfind]
  dsimp only
  rw [hask]
  dsimp only
  rw [hput]

end Surroundings

open Sample

/-- A world of two providers, one of them silent. -/
def shelf : Surroundings primitives Unit where
  toPeerId := PeerId.mk
  now := fun s => (7, s)
  request := fun peer _ s =>
    match (SignedEnvelope.seal [] (identity [8])).toOption with
    | some envelope => (if peer = ⟨[8]⟩ then .ok envelope else .error "timeout", s)
    | none => (.error "timeout", s)
  recordSuccess := fun _ s => (true, s)
  recordFailure := fun _ _ s => (true, s)
  countOrder := id

def shelfCodec : MessageCodec where
  encode := fun _ => []
  parse := fun _ => some (.content (ContentId.of primitives [7]) [7])

def shelfFetch : Except FetchError Bytes × Cas × Unit :=
  shelf.fetchP2p (identity [3]) shelfCodec (ContentId.of primitives [7])
    (fun _ s => (.ok [⟨[9]⟩, ⟨[8]⟩], s)) true ∅ ()

theorem shelf_verified : (shelfFetch.2.1).lookup (ContentId.of primitives [7]) = some [7] := by
  have h : shelfFetch = (.ok [7], _, _) := rfl
  exact (Surroundings.fetched_verified h).2.2.1 _

theorem shelf_reached : ∃ bytes files t, shelfFetch = (.ok bytes, files, t) ∧
    ContentId.of primitives [7] = ContentId.of primitives bytes :=
  @Surroundings.one_provider_suffices primitives Unit shelf (identity [3]) shelfCodec _ _ ∅ () () ⟨[8]⟩ _
    rfl rfl (by decide) (fun t => by cases t; decide +kernel)

end Peerless.Node
