import PolarWG.Proofs.Texts

/-!
# Peers read out and set again

The peer part of what is read out of a session, set in one without peers. The fields of a peer
fill the slot after the ones filled before; what is lost on the way, or stops the request, is read
off the peer.
-/

namespace PolarWG

open Specimen

variable {p : Prims} {s s' s'' t : WgSession} {resolve : Resolver} {cur : Option ℕ}

/-- What a request sets of a peer. -/
structure PeerInfo where
  pubkey : Bytes
  psk : Bytes
  endpoint : Option (ℕ × Bytes × UInt16)
  pkSec : ℤ
  allowed : List WgsAllowedCidr
deriving DecidableEq

def WgsPeer.info (peer : WgsPeer) : PeerInfo where
  pubkey := peer.pubkey
  psk := peer.psk
  endpoint := if peer.endpointLen = 0 then none else
    some (peer.endpoint.family, peer.endpoint.addr, peer.endpoint.port)
  pkSec := peer.pkSec
  allowed := peer.allowed

/-- The peers in use, in slot order. -/
def activePeers (s : WgSession) : List WgsPeer :=
  ((List.range s.nPeers).filter fun i => (s.peers i).active).map s.peers

/-- The texts of addresses are numbers and colons or dots, are read back as the addresses they
stand for, and are resolved to them. -/
structure Numeric (p : Prims) (ntop : ℕ → Bytes → Text) (resolve : Resolver) : Prop where
  word : ∀ family a, ∀ c ∈ ntop family a, c.isDigit ∨ ('a' ≤ c ∧ c ≤ 'f') ∨ c = '.' ∨ c = ':'
  length_pos : ∀ family a, 0 < (ntop family a).length
  length_le : ∀ family a, (ntop family a).length ≤ 45
  pton4 : ∀ a, a.length = 4 → p.inetPton afInet (ntop afInet a) = some a
  pton6 : ∀ a, a.length = 16 → p.inetPton afInet6 (ntop afInet6 a) = some a
  apart : ∀ a, a.length = 16 → p.inetPton afInet (ntop afInet6 a) = none
  length4 : ∀ t a, p.inetPton afInet t = some a → a.length = 4
  length6 : ∀ t a, p.inetPton afInet6 t = some a → a.length = 16
  resolved : ∀ addr : Sockaddr, addr.family = afInet ∨ addr.family = afInet6 →
    ∃ addr' len, resolve (ntop addr.family addr.addr) addr.port.toNat = some (addr', len)
      ∧ addr'.family = addr.family ∧ addr'.addr = addr.addr ∧ addr'.port = addr.port

/-- Each peer has a key of its own, an interval that requests take and no address, or one that
requests can name. -/
structure Restorable (s : WgSession) : Prop where
  keys : ((activePeers s).map WgsPeer.pubkey).Nodup
  pkSec : ∀ peer ∈ activePeers s, 0 ≤ peer.pkSec ∧ peer.pkSec ≤ 65535
  endpoint : ∀ peer ∈ activePeers s, peer.endpointLen ≠ 0 →
    (peer.endpoint.family = afInet ∨ peer.endpoint.family = afInet6) ∧ peer.endpoint.port ≠ 0

/-- What setting a peer's fields makes of it, if they can be set at all. -/
def WgsPeer.kept (peer : WgsPeer) : Option PeerInfo :=
  if 65535 < peer.pkSec then none
  else if peer.endpointLen = 0 then some { peer.info with pkSec := max 0 peer.pkSec }
  else if ¬ (peer.endpoint.family = afInet ∨ peer.endpoint.family = afInet6) then
    some { peer.info with pkSec := max 0 peer.pkSec, endpoint := none }
  else if peer.endpoint.port = 0 then none
  else some { peer.info with pkSec := max 0 peer.pkSec }

/-! ## Filling slots -/

/-- The slots in use are the first ones, and hold these peers. -/
structure Filled (p : Prims) (s : WgSession) (ps : List PeerInfo) : Prop where
  accounted : Accounted p s
  room : ps.length ≤ s.nPeers
  slots : ∀ i, ps[i]? = if (s.peers i).active then some (s.peers i).info else none

theorem Filled.active_iff {ps : List PeerInfo} (h : Filled p s ps) (i : ℕ) :
    (s.peers i).active ↔ i < ps.length := by
  have := h.slots i
  split at this
  · next ha => exact ⟨fun _ => List.getElem?_eq_some_iff.mp this |>.1, fun _ => ha⟩
  · next ha => exact ⟨fun hi => absurd hi ha, fun hi => by simp [hi] at this⟩

theorem Filled.infos {ps : List PeerInfo} (h : Filled p s ps) :
    (activePeers s).map WgsPeer.info = ps := by
  have hfilter : (List.range s.nPeers).filter (fun i => (s.peers i).active)
      = List.range ps.length := by
    have heq : ∀ i ∈ List.range s.nPeers, (s.peers i).active = decide (i < ps.length) :=
      fun i _ => by
        have := h.active_iff i
        rcases hb : (s.peers i).active <;> simp_all
    rw [List.filter_congr heq]
    obtain ⟨d, hd⟩ := Nat.exists_eq_add_of_le h.room
    rw [hd, List.range_add, List.filter_append, List.filter_eq_self.mpr, List.filter_eq_nil_iff.mpr,
      List.append_nil]
    · intro i hi
      obtain ⟨j, -, rfl⟩ := List.mem_map.mp hi
      simp
    · intro i hi
      simpa using List.mem_range.mp hi
  unfold activePeers
  rw [hfilter, List.map_map]
  refine List.ext_getElem? fun i => ?_
  rw [List.getElem?_map, h.slots i]
  by_cases hi : i < ps.length
  · have ha := (h.active_iff i).mpr hi
    simp [ha, List.getElem?_range hi]
  · have ha : ¬ (s.peers i).active = true := fun ha => hi ((h.active_iff i).mp ha)
    simp [ha, hi]

/-- A request keeps the books. -/
theorem setKey_accounted {key val : Text} {cur' : Option ℕ} (hf : FieldText key val)
    (h : Accounted p s) (hcur : ∀ i, cur = some i → (s.peers i).active)
    (hs : setKey p resolve s cur key val = .next s' cur') : Accounted p s' := by
  have hline : setLine p resolve s cur (key ++ '=' :: val) = .next s' cur' := by
    rw [setLine, hf.uapiLine]
    exact hs
  exact (setLine_next h hcur hline).1

/-- Reading `text` turns the last peer from `q` into `q'`. -/
def Fills (p : Prims) (resolve : Resolver) (ps : List PeerInfo) (q q' : PeerInfo) (text : Text) :
    Prop :=
  ∀ s, Filled p s (ps ++ [q]) → ∃ s', Filled p s' (ps ++ [q'])
    ∧ Reads p resolve s (some ps.length) text s' (some ps.length)

theorem Fills.nil {ps : List PeerInfo} {q : PeerInfo} : Fills p resolve ps q q [] :=
  fun s h => ⟨s, h, .nil⟩

theorem Fills.append {ps : List PeerInfo} {q q' q'' : PeerInfo} {text text' : Text}
    (h : Fills p resolve ps q q' text) (h' : Fills p resolve ps q' q'' text') :
    Fills p resolve ps q q'' (text ++ text') := fun s hs => by
  obtain ⟨s₁, h1, hr1⟩ := h s hs
  obtain ⟨s₂, h2, hr2⟩ := h' s₁ h1
  exact ⟨s₂, h2, hr1.append hr2⟩

/-- A field that edits the selected slot. -/
theorem fills_field {ps : List PeerInfo} {q q' : PeerInfo} {key val : Text}
    (hf : FieldText key val) (hs : ∀ s, Filled p s (ps ++ [q]) → ∃ s' peer,
      setKey p resolve s (some ps.length) key val = .next s' (some ps.length)
        ∧ s'.peers = Function.update s.peers ps.length peer ∧ s'.nPeers = s.nPeers
        ∧ peer.active ∧ peer.info = q') : Fills p resolve ps q q' (uapiField key val) := by
  intro s h
  obtain ⟨s', peer, hset, hpeers, hn, hact, hinfo⟩ := hs s h
  have hcur : ∀ i, some ps.length = some i → (s.peers i).active := fun i hi => by
    rw [h.active_iff, ← Option.some.inj hi]
    simp
  refine ⟨s', ⟨setKey_accounted hf h.accounted hcur hset, ?_, fun i => ?_⟩, reads_field hf hset⟩
  · rw [hn]
    simpa using h.room
  · have := h.slots i
    rw [hpeers, Function.update_apply]
    split
    · next e =>
      subst e
      simp [hinfo]
    · next hne =>
      rw [← this]
      rcases Nat.lt_or_gt_of_ne hne with hlt | hgt
      · rw [List.getElem?_append_left hlt, List.getElem?_append_left hlt]
      · rw [List.getElem?_eq_none (by simp; omega), List.getElem?_eq_none (by simp; omega)]

theorem Filled.last {ps : List PeerInfo} {q : PeerInfo} (h : Filled p s (ps ++ [q])) :
    (s.peers ps.length).active ∧ (s.peers ps.length).info = q := by
  have ha : (s.peers ps.length).active := (h.active_iff _).mpr (by simp)
  have := h.slots ps.length
  simp only [List.getElem?_append_right le_rfl, Nat.sub_self, List.getElem?_cons_zero, ha, if_true,
    Option.some.injEq] at this
  exact ⟨ha, this.symm⟩

/-! ## Fields -/

theorem setKey_peer {k : ℕ} (key val : Text)
    (hk : key ∉ rejectedKeys ++ ["set".toList, "listen_port".toList, "public_key".toList]) :
    setKey p resolve s (some k) key val = setPeerKey p resolve s k key val := by
  simp only [List.mem_append, List.mem_cons, List.not_mem_nil, or_false, not_or] at hk
  unfold setKey
  rw [if_neg hk.2.1, if_neg hk.1, if_neg hk.2.2.1, if_neg hk.2.2.2]

theorem peerKeys_heeded : ∀ key ∈ ["preshared_key".toList, "endpoint".toList,
    "persistent_keepalive_interval".toList, "allowed_ip".toList, "errno".toList,
    "protocol_version".toList, "last_handshake_time_sec".toList,
    "last_handshake_time_nsec".toList, "tx_bytes".toList, "rx_bytes".toList],
    key ∉ rejectedKeys ++ ["set".toList, "listen_port".toList, "public_key".toList] := by
  decide +kernel

/-- A field that requests skip. -/
theorem fills_ignored {ps : List PeerInfo} {q : PeerInfo} {key val : Text} (hf : FieldText key val)
    (hk : key ∉ rejectedKeys ++ ["set".toList, "listen_port".toList, "public_key".toList])
    (hp : key ∉ ["remove".toList, "preshared_key".toList, "endpoint".toList,
      "persistent_keepalive_interval".toList, "replace_allowed_ips".toList, "allowed_ip".toList]) :
    Fills p resolve ps q q (uapiField key val) := by
  refine fills_field hf fun s h => ?_
  refine ⟨s, s.peers ps.length, ?_, (Function.update_eq_self _ _).symm, rfl, h.last.1, h.last.2⟩
  rw [setKey_peer key val hk]
  simp only [List.mem_cons, List.not_mem_nil, or_false, not_or] at hp
  unfold setPeerKey
  rw [if_neg hp.1, if_neg hp.2.1, if_neg hp.2.2.1, if_neg hp.2.2.2.1, if_neg hp.2.2.2.2.1,
    if_neg hp.2.2.2.2.2]

theorem fills_psk {ps : List PeerInfo} {q : PeerInfo} {psk : Bytes} (hl : psk.length = 32) :
    Fills p resolve ps q { q with psk }
      (uapiField "preshared_key".toList (hexEncode psk)) := by
  refine fills_field ⟨by simp [Plain, plainChar, isTrimmed], by decide, by decide, plain_hexEncode psk⟩
    fun s h => ?_
  obtain ⟨ha, hq⟩ := h.last
  have hset : ∃ s', setKey p resolve s (some ps.length) "preshared_key".toList (hexEncode psk)
      = .next s' (some ps.length)
      ∧ s'.peers = Function.update s.peers ps.length
        { s.peers ps.length with psk, hasPsk := ¬ psk.all (· = 0) } ∧ s'.nPeers = s.nPeers := by
    rw [setKey_peer "preshared_key".toList _ (peerKeys_heeded _ (by simp))]
    unfold setPeerKey
    rw [if_neg (by decide), if_pos rfl, hexDecode_hexEncode hl]
    simp only []
    split
    · exact ⟨_, rfl, rfl, rfl⟩
    · exact ⟨_, rfl, rfl, rfl⟩
  obtain ⟨s', h1, h2, h3⟩ := hset
  exact ⟨s', _, h1, h2, h3, ha, by rw [← hq]; rfl⟩

theorem fills_interval {ps : List PeerInfo} {q : PeerInfo} {n : ℕ} (hn : n ≤ 65535) :
    Fills p resolve ps q { q with pkSec := n }
      (uapiField "persistent_keepalive_interval".toList (fmtSigned n)) := by
  refine fills_field ⟨by simp [Plain, plainChar, isTrimmed], by decide, by decide, plain_fmtSigned n⟩
    fun s h => ?_
  obtain ⟨ha, hq⟩ := h.last
  have hat : atoi (fmtSigned n) = n := atoi_fmtUnsigned (by omega)
  refine ⟨s.modPeer ps.length fun peer => { peer with pkSec := n }, _, ?_, rfl, rfl, ha,
    by rw [← hq]; rfl⟩
  rw [setKey_peer "persistent_keepalive_interval".toList _ (peerKeys_heeded _ (by simp))]
  unfold setPeerKey
  rw [if_neg (by decide), if_neg (by decide), if_neg (by decide), if_pos rfl, hat]
  simp only []
  rw [if_neg (by omega)]

theorem stops_interval {k : ℕ} {n : ℤ} (hn : 65535 < n) (hlt : n < 2 ^ 31) :
    Stops p resolve s (some k)
      (uapiField "persistent_keepalive_interval".toList (fmtSigned n)) := by
  obtain ⟨m, rfl⟩ := Int.eq_ofNat_of_zero_le (show 0 ≤ n by omega)
  have hat : atoi (fmtSigned (m : ℤ)) = m := atoi_fmtUnsigned (by omega)
  have hf' : FieldText "persistent_keepalive_interval".toList (fmtSigned (m : ℤ)) :=
    ⟨by simp [Plain, plainChar, isTrimmed], by decide, by decide, plain_fmtSigned m⟩
  refine stops_field s hf' ?_
  rw [setKey_peer "persistent_keepalive_interval".toList _ (peerKeys_heeded _ (by simp))]
  unfold setPeerKey
  rw [if_neg (by decide), if_neg (by decide), if_neg (by decide), if_pos rfl, hat]
  simp only []
  rw [if_pos (by omega)]

/-! ## Addresses -/

variable {ntop : ℕ → Bytes → Text}

theorem Numeric.char (h : Numeric p ntop resolve) {family : ℕ} {a : Bytes} {c : Char}
    (hc : c ∈ ntop family a) : 46 ≤ c.toNat ∧ c.toNat ≤ 102 ∧ c ≠ '/' ∧ c ≠ '[' ∧ c ≠ ']' := by
  rcases h.word family a c hc with hd | ⟨h1, h2⟩ | rfl | rfl
  · have := isDigit_bounds hd
    refine ⟨by omega, by omega, ?_, ?_, ?_⟩ <;>
    · rintro rfl
      simp at this
  · have h1' : 97 ≤ c.toNat := h1
    have h2' : c.toNat ≤ 102 := h2
    refine ⟨by omega, by omega, ?_, ?_, ?_⟩ <;>
    · rintro rfl
      simp at h1'
  · decide
  · decide

theorem Numeric.plain (h : Numeric p ntop resolve) (family : ℕ) (a : Bytes) :
    Plain (ntop family a) := fun _ hc => plainChar_of_bounds (by have := (h.char hc).1; omega)

theorem parsePort_fmtUnsigned {n : ℕ} (h : n ≤ 65535) :
    parsePort (fmtUnsigned n) = if n = 0 then none else some n := by
  unfold parsePort
  rw [strtol_fmtUnsigned (by omega)]
  simp only []
  rcases Nat.eq_zero_or_pos n with rfl | hpos
  · rfl
  · rw [if_neg (by omega), if_neg (by omega)]
    rfl

/-- The text of an address and a port, as `uapiEndpoint` writes it. -/
def endpointText (ntop : ℕ → Bytes → Text) (addr : Sockaddr) : Text :=
  if addr.family = afInet then ntop afInet addr.addr ++ ':' :: fmtUnsigned addr.port.toNat
  else '[' :: (ntop afInet6 addr.addr ++ ']' :: ':' :: fmtUnsigned addr.port.toNat)

theorem plain_endpointText (h : Numeric p ntop resolve) (addr : Sockaddr) :
    Plain (endpointText ntop addr) := by
  unfold endpointText
  split
  · exact (h.plain _ _).append (.cons (by decide) (plain_fmtUnsigned _))
  · exact .cons (by decide) ((h.plain _ _).append
      (.cons (by decide) (.cons (by decide) (plain_fmtUnsigned _))))

theorem splitEndpointSpec_text (h : Numeric p ntop resolve) {addr : Sockaddr}
    (hf : addr.family = afInet ∨ addr.family = afInet6) :
    splitEndpointSpec (endpointText ntop addr) = if addr.port = 0 then none
      else some (ntop addr.family addr.addr, addr.port.toNat) := by
  have hport : addr.port.toNat ≤ 65535 := by
    have := addr.port.toNat_lt
    omega
  have hzero : addr.port.toNat = 0 ↔ addr.port = 0 := by
    rw [← UInt16.toNat_inj]
    rfl
  have hpos := h.length_pos addr.family addr.addr
  have hle := h.length_le addr.family addr.addr
  unfold splitEndpointSpec endpointText
  rcases hf with hf | hf
  · rw [if_pos hf]
    rw [hf] at hpos hle
    split
    · next rest e =>
      obtain ⟨c, u, hu⟩ := List.exists_cons_of_length_pos hpos
      rw [hu, List.cons_append] at e
      have : _ ∧ _ ∧ _ ∧ c ≠ '[' ∧ _ := h.char (hu ▸ List.mem_cons_self : c ∈ ntop afInet addr.addr)
      exact absurd (List.cons.inj e).1 this.2.2.2.1
    · unfold splitEndpoint
      rw [strrchr_append (not_mem_fmtUnsigned (by decide)), Option.bind_some]
      simp only []
      rw [if_neg (by omega), parsePort_fmtUnsigned hport]
      simp only [hzero, hf]
      split <;> rfl
  · rw [if_neg (by rw [hf]; decide)]
    rw [hf] at hpos hle
    have hclose : ']' ∉ ntop afInet6 addr.addr := fun hc => (h.char hc).2.2.2.2 rfl
    simp only [strchr_append hclose]
    rw [if_neg (by omega), parsePort_fmtUnsigned hport]
    simp only [hzero, hf]
    split <;> rfl

theorem fills_endpoint (h : Numeric p ntop resolve) {ps : List PeerInfo} {q : PeerInfo}
    {addr : Sockaddr} (hf : addr.family = afInet ∨ addr.family = afInet6) (hp : addr.port ≠ 0) :
    Fills p resolve ps q { q with endpoint := some (addr.family, addr.addr, addr.port) }
      (uapiField "endpoint".toList (endpointText ntop addr)) := by
  refine fills_field ⟨by simp [Plain, plainChar, isTrimmed], by decide, by decide, plain_endpointText h addr⟩
    fun s hs => ?_
  obtain ⟨ha, hq⟩ := hs.last
  obtain ⟨addr', len, hres, e1, e2, e3⟩ := h.resolved addr hf
  refine ⟨s.modPeer ps.length fun peer => { peer with
    endpoint := addr', endpointLen := len, hasEndpoint := true
    endpointHost := ntop addr.family addr.addr, endpointPort := addr.port.toNat },
    _, ?_, rfl, rfl, ha, ?_⟩
  · rw [setKey_peer "endpoint".toList _ (peerKeys_heeded _ (by simp))]
    unfold setPeerKey peerSetEndpointStr
    rw [if_neg (by decide), if_neg (by decide), if_pos rfl, splitEndpointSpec_text h hf, if_neg hp]
    simp only [Option.bind_eq_bind, Option.bind_some, hres, Option.pure_def]
    rfl
  · have hlen : ((len : ℕ+) : ℕ) ≠ 0 := len.ne_zero
    rw [← hq]
    simp only [WgsPeer.info, if_neg hlen, e1, e2, e3]

theorem stops_endpoint (h : Numeric p ntop resolve) {k : ℕ} {addr : Sockaddr}
    (hf : addr.family = afInet ∨ addr.family = afInet6) (hp : addr.port = 0) :
    Stops p resolve s (some k) (uapiField "endpoint".toList (endpointText ntop addr)) := by
  have hf' : FieldText "endpoint".toList (endpointText ntop addr) :=
    ⟨by simp [Plain, plainChar, isTrimmed], by decide, by decide, plain_endpointText h addr⟩
  refine stops_field s hf' ?_
  rw [setKey_peer "endpoint".toList _ (peerKeys_heeded _ (by simp))]
  unfold setPeerKey peerSetEndpointStr
  rw [if_neg (by decide), if_neg (by decide), if_pos rfl, splitEndpointSpec_text h hf, if_pos hp]
  rfl

/-- The text of an entry, as `uapiAllowed` writes it. -/
def cidrText (ntop : ℕ → Bytes → Text) (c : WgsAllowedCidr) : Text :=
  ntop c.family (if c.family = afInet then c.addr.take 4 else c.addr)
    ++ '/' :: fmtUnsigned c.prefixLen

theorem plain_cidrText (h : Numeric p ntop resolve) (c : WgsAllowedCidr) : Plain (cidrText ntop c) :=
  (h.plain _ _).append (.cons (by decide) (plain_fmtUnsigned _))

/-- An entry is read back as what it was parsed to. -/
theorem parseCidr_text (h : Numeric p ntop resolve) {c : WgsAllowedCidr} {t : Text}
    (hc : parseCidr p t = some c) : parseCidr p (cidrText ntop c) = some c := by
  have hformed := parseCidr_formed hc
  have hlen : c.prefixLen ≤ 128 := by
    by_cases hf : c.family = afInet
    · exact (hformed.v4 hf).trans (by decide)
    · exact (hformed.v6 hf).2
  have hdig : (fmtUnsigned c.prefixLen).length ≤ 3 :=
    (Nat.length_toDigits_le_iff (by decide) (by decide)).mpr (by omega)
  have hsplit : splitPrefix (cidrText ntop c)
      = (ntop c.family (if c.family = afInet then c.addr.take 4 else c.addr), (c.prefixLen : ℤ)) := by
    unfold splitPrefix cidrText
    rw [strchr_append fun hm => (h.char hm).2.2.1 rfl]
    simp only [atoi_fmtUnsigned (show c.prefixLen < 2 ^ 31 by omega)]
  have hshort : ¬ 64 ≤ (cidrText ntop c).length := by
    have := h.length_le c.family (if c.family = afInet then c.addr.take 4 else c.addr)
    simp only [cidrText, List.length_append, List.length_cons]
    omega
  unfold parseCidr at hc ⊢
  rw [if_neg hshort, hsplit]
  split at hc
  · cases hc
  simp only [] at hc ⊢
  have hneg : ¬ (c.prefixLen : ℤ) < 0 := by omega
  split at hc
  · next a ha =>
    have hal := h.length4 _ _ ha
    split_ifs at hc with h1 h2 h2
    all_goals
      obtain rfl := Option.some.inj hc
      have htake : ((a ++ zeros 16).take 16).take 4 = a := by
        rw [List.take_take, List.take_append_of_le_length (by omega), List.take_of_length_le (by omega)]
      simp only [if_true, htake, h.pton4 a hal, if_neg hneg]
      rw [if_neg (by omega), Int.toNat_natCast]
  · split at hc
    · next a ha =>
      have hal := h.length6 _ _ ha
      split_ifs at hc with h1 h2 h2
      all_goals
        obtain rfl := Option.some.inj hc
        have htake : (a ++ zeros 16).take 16 = a := by
          rw [List.take_append_of_le_length (by omega), List.take_of_length_le (by omega)]
        simp only [show (afInet6 = afInet) = False by decide, if_false, htake, h.apart a hal,
          h.pton6 a hal, if_neg hneg]
        rw [if_neg (by omega), Int.toNat_natCast]
    · cases hc

theorem fills_allowed (h : Numeric p ntop resolve) {ps : List PeerInfo} {q : PeerInfo}
    {c : WgsAllowedCidr} {t : Text} (hc : parseCidr p t = some c)
    (hroom : q.allowed.length < wgsMaxAllowedCidrs) :
    Fills p resolve ps q { q with allowed := q.allowed ++ [c] } (uapiAllowed ntop c) := by
  have htext : uapiAllowed ntop c = uapiField "allowed_ip".toList (cidrText ntop c) := by
    have hformed := parseCidr_formed hc
    unfold uapiAllowed cidrText
    by_cases hf : c.family = afInet
    · simp only [if_pos hf]
    · simp only [if_neg hf, if_pos (hformed.v6 hf).1]
  rw [htext]
  refine fills_field ⟨by simp [Plain, plainChar, isTrimmed], by decide, by decide,
    plain_cidrText h c⟩ fun s hs => ?_
  obtain ⟨ha, hq⟩ := hs.last
  have hallowed : (s.peers ps.length).allowed = q.allowed := congrArg PeerInfo.allowed hq
  refine ⟨s.modPeer ps.length fun peer => { peer with allowed := peer.allowed ++ [c] }, _, ?_, rfl,
    rfl, ha, by rw [← hq]; rfl⟩
  rw [setKey_peer "allowed_ip".toList _ (peerKeys_heeded _ (by simp))]
  unfold setPeerKey
  rw [if_neg (by decide), if_neg (by decide), if_neg (by decide), if_neg (by decide),
    if_neg (by decide), if_pos rfl, hallowed, if_neg (by omega), parseCidr_text h hc]

theorem fills_allowed_all (h : Numeric p ntop resolve) {ps : List PeerInfo} :
    ∀ {cs : List WgsAllowedCidr} {q : PeerInfo}, (∀ c ∈ cs, ∃ t, parseCidr p t = some c) →
    q.allowed.length + cs.length ≤ wgsMaxAllowedCidrs →
    Fills p resolve ps q { q with allowed := q.allowed ++ cs } (cs.flatMap (uapiAllowed ntop))
  | [], q, _, _ => by
    rw [List.append_nil]
    exact .nil
  | c :: cs, q, hcs, hroom => by
    obtain ⟨t, ht⟩ := hcs c List.mem_cons_self
    rw [List.length_cons] at hroom
    have hc : Fills p resolve ps q { q with allowed := q.allowed ++ [c] } (uapiAllowed ntop c) :=
      fills_allowed h ht (by omega)
    have := hc.append (fills_allowed_all h (fun d hd => hcs d (List.mem_cons_of_mem c hd))
      (by rw [List.length_append, List.length_singleton]; omega))
    simp only [List.append_assoc, List.singleton_append] at this
    exact this

/-! ## Peers -/

/-- The fields of a peer after its key. -/
def uapiPeerRest (ntop : ℕ → Bytes → Text) (peer : WgsPeer) : Text :=
  uapiField "preshared_key".toList
      (if peer.hasPsk then hexEncode peer.psk else List.replicate 64 '0')
    ++ (uapiEndpoint ntop peer
    ++ (uapiField "last_handshake_time_sec".toList
      (if peer.keypairBirth ≠ 0 then fmtSigned peer.keypairBirth else ['0'])
    ++ (uapiField "last_handshake_time_nsec".toList ['0']
    ++ (uapiField "tx_bytes".toList (fmtUnsigned peer.txBytes)
    ++ (uapiField "rx_bytes".toList (fmtUnsigned peer.rxBytes)
    ++ ((if peer.pkSec > 0 then
        uapiField "persistent_keepalive_interval".toList (fmtSigned peer.pkSec) else [])
    ++ (peer.allowed.flatMap (uapiAllowed ntop)
    ++ uapiField "protocol_version".toList ['1'])))))))

theorem uapiPeer_eq (ntop : ℕ → Bytes → Text) (peer : WgsPeer) : uapiPeer ntop peer
    = uapiField "public_key".toList (hexEncode peer.pubkey) ++ uapiPeerRest ntop peer := by
  simp only [uapiPeer, uapiPeerRest, List.append_assoc]

/-- What a slot holds once its key is set. -/
def PeerInfo.fresh (pubkey : Bytes) : PeerInfo := ⟨pubkey, zeros 32, none, 0, []⟩

/-- The fields between the endpoint and the interval are skipped. -/
theorem fills_status {ps : List PeerInfo} {q : PeerInfo} (peer : WgsPeer) :
    Fills p resolve ps q q (uapiField "last_handshake_time_sec".toList
        (if peer.keypairBirth ≠ 0 then fmtSigned peer.keypairBirth else ['0'])
      ++ (uapiField "last_handshake_time_nsec".toList ['0']
      ++ (uapiField "tx_bytes".toList (fmtUnsigned peer.txBytes)
      ++ uapiField "rx_bytes".toList (fmtUnsigned peer.rxBytes)))) := by
  have hzero : Plain ['0'] := by simp [Plain, plainChar, isTrimmed]
  have hplain : Plain (if peer.keypairBirth ≠ 0 then fmtSigned peer.keypairBirth else ['0']) := by
    split
    · exact plain_fmtSigned _
    · exact hzero
  have field : ∀ {key val : Text}, key ∈ ["last_handshake_time_sec".toList,
      "last_handshake_time_nsec".toList, "tx_bytes".toList, "rx_bytes".toList] → Plain val →
      Fills p resolve ps q q (uapiField key val) := by
    intro key val hkey hval
    simp only [List.mem_cons, List.not_mem_nil, or_false] at hkey
    rcases hkey with rfl | rfl | rfl | rfl <;>
    exact fills_ignored ⟨by simp [Plain, plainChar, isTrimmed], by decide, by decide, hval⟩
      (peerKeys_heeded _ (by simp)) (by decide)
  exact (field (by simp) hplain).append ((field (by simp) hzero).append
    ((field (by simp) (plain_fmtUnsigned _)).append (field (by simp) (plain_fmtUnsigned _))))

/-- Reading `text` turns the last peer from `q` into what `o` says, or stops the request. -/
def Turns (p : Prims) (resolve : Resolver) (ps : List PeerInfo) (q : PeerInfo) :
    Option PeerInfo → Text → Prop
  | some q', text => Fills p resolve ps q q' text
  | none, text => ∀ s, Filled p s (ps ++ [q]) → Stops p resolve s (some ps.length) text

theorem Turns.bind {ps : List PeerInfo} {q : PeerInfo} {o : Option PeerInfo} {text text' : Text}
    {f : PeerInfo → Option PeerInfo} (h : Turns p resolve ps q o text)
    (hf : ∀ q', o = some q' → Turns p resolve ps q' (f q') text') :
    Turns p resolve ps q (o.bind f) (text ++ text') := by
  cases o with
  | none => exact fun s hs => (h s hs).append text'
  | some q' =>
    have h' := hf q' rfl
    rw [Option.bind_some]
    rcases hq : f q' with _ | q''
    · rw [hq] at h'
      intro s hs
      obtain ⟨s₁, h1, hr⟩ := h s hs
      exact hr.stops (h' s₁ h1)
    · rw [hq] at h'
      exact Fills.append h h'

theorem Fills.turns {ps : List PeerInfo} {q q' : PeerInfo} {o : Option PeerInfo}
    {text text' : Text} (h : Fills p resolve ps q q' text) (h' : Turns p resolve ps q' o text') :
    Turns p resolve ps q o (text ++ text') :=
  Turns.bind (o := some q') (f := fun _ => o) h fun _ e => Option.some.inj e ▸ h'

theorem turns_endpoint (h : Numeric p ntop resolve) {ps : List PeerInfo} {q : PeerInfo}
    (peer : WgsPeer) : Turns p resolve ps q
      (if peer.endpointLen = 0 ∨ ¬ (peer.endpoint.family = afInet ∨ peer.endpoint.family = afInet6)
        then some q
      else if peer.endpoint.port = 0 then none
      else some { q with
        endpoint := some (peer.endpoint.family, peer.endpoint.addr, peer.endpoint.port) })
      (uapiEndpoint ntop peer) := by
  have htext : uapiEndpoint ntop peer = if peer.endpointLen = 0
      ∨ ¬ (peer.endpoint.family = afInet ∨ peer.endpoint.family = afInet6) then []
      else uapiField "endpoint".toList (endpointText ntop peer.endpoint) := by
    unfold uapiEndpoint endpointText
    simp only []
    split_ifs <;> first | rfl | omega
  rw [htext]
  split_ifs with h1 h2
  · exact Fills.nil
  · exact fun s hs => stops_endpoint h (not_not.mp (not_or.mp h1).2) h2
  · exact fills_endpoint h (not_not.mp (not_or.mp h1).2) h2

theorem turns_interval (ps : List PeerInfo) {q : PeerInfo} {peer : WgsPeer}
    (hlt : peer.pkSec < 2 ^ 31) (hq : q.pkSec = 0) : Turns p resolve ps q
      (if 65535 < peer.pkSec then none else some { q with pkSec := max 0 peer.pkSec })
      (if peer.pkSec > 0 then
        uapiField "persistent_keepalive_interval".toList (fmtSigned peer.pkSec) else []) := by
  by_cases hpos : peer.pkSec > 0
  · rw [if_pos hpos]
    obtain ⟨n, hn⟩ := Int.eq_ofNat_of_zero_le hpos.le
    split
    · next hbig => exact fun s hs => stops_interval hbig hlt
    · next hle =>
      rw [max_eq_right hpos.le, hn]
      exact fills_interval (by omega)
  · rw [if_neg hpos, if_neg (by omega), max_eq_left (by omega), ← hq]
    exact Fills.nil

/-- The fields after the key fill the slot, or stop the request. -/
theorem turns_rest (h : Numeric p ntop resolve) (ps : List PeerInfo) {peer : WgsPeer}
    (hs : peer.config.Sound p) :
    Turns p resolve ps (.fresh peer.pubkey) peer.kept (uapiPeerRest ntop peer) := by
  have hpsk : Turns p resolve ps (.fresh peer.pubkey)
      (some { PeerInfo.fresh peer.pubkey with psk := peer.psk })
      (uapiField "preshared_key".toList
        (if peer.hasPsk then hexEncode peer.psk else List.replicate 64 '0')) := by
    split
    · exact fills_psk hs.psk
    · next hoff =>
      have hz : hexEncode (zeros 32) = List.replicate 64 '0' := rfl
      rw [← hz, ← hs.keyless hoff]
      exact fills_psk hs.psk
  have hversion : ∀ q, Fills p resolve ps q q (uapiField "protocol_version".toList ['1']) :=
    fun q => fills_ignored ⟨by simp [Plain, plainChar, isTrimmed], by decide, by decide,
      by simp [Plain, plainChar, isTrimmed]⟩ (peerKeys_heeded _ (by simp)) (by decide)
  have hkept : peer.kept = (some { PeerInfo.fresh peer.pubkey with psk := peer.psk }).bind fun q =>
      (if peer.endpointLen = 0 ∨ ¬ (peer.endpoint.family = afInet ∨ peer.endpoint.family = afInet6)
        then some q
      else if peer.endpoint.port = 0 then none
      else some { q with
        endpoint := some (peer.endpoint.family, peer.endpoint.addr, peer.endpoint.port) }).bind
      fun q => (if 65535 < peer.pkSec then none else some { q with pkSec := max 0 peer.pkSec }).bind
      fun q => some { q with allowed := q.allowed ++ peer.allowed } := by
    unfold WgsPeer.kept WgsPeer.info
    simp only [Option.bind_some, PeerInfo.fresh]
    split_ifs <;> simp_all
  rw [hkept]
  unfold uapiPeerRest
  refine hpsk.bind fun q hq => ?_
  obtain rfl := Option.some.inj hq
  refine (turns_endpoint h peer).bind fun q hq => ?_
  have hzero : q.pkSec = 0 ∧ q.allowed = [] := by
    split_ifs at hq <;> obtain rfl := Option.some.inj hq <;> exact ⟨rfl, rfl⟩
  have hlast : ∀ q : PeerInfo, q.allowed = [] →
      Turns p resolve ps q (some { q with allowed := q.allowed ++ peer.allowed })
        (peer.allowed.flatMap (uapiAllowed ntop) ++ uapiField "protocol_version".toList ['1']) := by
    intro q hempty
    refine (fills_allowed_all h hs.allowed ?_).append (hversion _)
    rw [hempty, List.length_nil, Nat.zero_add]
    exact hs.room
  have hint := (turns_interval ps hs.interval hzero.1).bind
      (f := fun q => some { q with allowed := q.allowed ++ peer.allowed }) fun q' hq' =>
    hlast q' (by split_ifs at hq'; rw [← Option.some.inj hq']; exact hzero.2)
  have hrest := (fills_status peer).turns hint
  simp only [List.append_assoc] at hrest
  exact hrest

theorem kept_pubkey {peer : WgsPeer} {q : PeerInfo} (h : peer.kept = some q) :
    q.pubkey = peer.pubkey := by
  unfold WgsPeer.kept at h
  split_ifs at h <;> rw [← Option.some.inj h] <;> rfl

theorem Filled.alloc {ps : List PeerInfo} (h : Filled p s ps) (hroom : ps.length < wgsMaxPeers) :
    ∃ s', allocPeerSlot s = (s', some ps.length) := by
  have hfree : ∀ i, (¬ (s.peers i).active = true) ↔ ps.length ≤ i := fun i => by
    rw [h.active_iff, Nat.not_lt]
  rcases h.room.lt_or_eq with hlt | heq
  · have hfind : (List.range s.nPeers).find? (fun i => ¬ (s.peers i).active) = some ps.length := by
      rw [List.find?_range_eq_some]
      refine ⟨decide_eq_true ((hfree _).mpr le_rfl), List.mem_range.mpr hlt, fun j hj => ?_⟩
      have := (h.active_iff j).mpr hj
      simp [this]
    exact ⟨s, by rw [allocPeerSlot, hfind]⟩
  · have hfind : (List.range s.nPeers).find? (fun i => ¬ (s.peers i).active) = none := by
      rw [List.find?_eq_none]
      intro i hi
      have := (h.active_iff i).mpr (by rw [heq]; exact List.mem_range.mp hi)
      simp [this]
    rw [allocPeerSlot, hfind]
    simp only []
    rw [if_neg (by omega), heq]
    exact ⟨_, rfl⟩

theorem peerInitRuntime_slot {i : ℕ} {pk : Bytes} {ok : Bool}
    (hs : peerInitRuntime p s i pk = (s', ok)) : ∃ peer,
      s'.peers = Function.update s.peers i peer ∧ s'.nPeers = s.nPeers ∧ peer.active
        ∧ peer.info = .fresh pk := by
  unfold peerInitRuntime at hs
  simp only [] at hs
  split at hs
  all_goals
    simp only [Prod.mk.injEq] at hs
    rw [← hs.1]
    exact ⟨_, rfl, rfl, rfl, rfl⟩

/-- A new key takes the next slot. -/
theorem Filled.add {ps : List PeerInfo} {pk : Bytes} (h : Filled p s ps) (resolve : Resolver)
    (cur : Option ℕ) (hl : pk.length = 32)
    (hfresh : pk ∉ ps.map PeerInfo.pubkey) (hroom : ps.length < wgsMaxPeers) :
    ∃ s', Filled p s' (ps ++ [.fresh pk])
      ∧ Reads p resolve s cur (uapiField "public_key".toList (hexEncode pk)) s' (some ps.length) := by
  have hf : FieldText "public_key".toList (hexEncode pk) :=
    ⟨by simp [Plain, plainChar, isTrimmed], by decide, by decide, plain_hexEncode pk⟩
  have hnone : findPeerByPubkey s pk = none := by
    rcases hfind : findPeerByPubkey s pk with _ | i
    · rfl
    · obtain ⟨-, ha, hpk⟩ := findPeerByPubkey_some hfind
      have := h.slots i
      rw [if_pos ha] at this
      refine absurd (List.mem_map.mpr ⟨_, List.mem_of_getElem? this, ?_⟩) hfresh
      exact hpk
  obtain ⟨s₁, halloc⟩ := h.alloc hroom
  obtain ⟨hp₁, -⟩ := allocPeerSlot_outside halloc
  obtain ⟨hr₁, hi₁, hout₁, -⟩ := allocPeerSlot_some .all h.accounted halloc
  rcases hinit : peerInitRuntime p s₁ ps.length pk with ⟨s', ok⟩
  have hr₂ : Refines p .all s₁ s' ∧ ok = true ∧ (s'.peers ps.length).active :=
    peerInitRuntime_refines hr₁.1 hi₁ hout₁ trivial hinit
  obtain ⟨hr₂, rfl, -⟩ := hr₂
  obtain ⟨peer, hpeers, hn, hact, hinfo⟩ := peerInitRuntime_slot hinit
  have hset : setKey p resolve s cur "public_key".toList (hexEncode pk)
      = .next s' (some ps.length) := by
    unfold setKey setPublicKey
    rw [if_neg (by decide), if_neg (by decide), if_neg (by decide), if_pos rfl,
      hexDecode_hexEncode hl]
    simp only [hnone, halloc, hinit]
  refine ⟨s', ⟨hr₂.1, ?_, fun i => ?_⟩, reads_field hf hset⟩
  · rw [hn]
    simpa using hi₁
  · rw [hpeers, hp₁, Function.update_apply]
    split
    · next e =>
      subst e
      simp [hinfo]
    · next hne =>
      rw [← h.slots i]
      rcases Nat.lt_or_gt_of_ne hne with hlt | hgt
      · rw [List.getElem?_append_left hlt]
      · rw [List.getElem?_eq_none (by simp; omega), List.getElem?_eq_none (by omega)]

/-- The peers are read one after the other, until one of them stops the request. -/
theorem peers_read (h : Numeric p ntop resolve) : ∀ {peers : List WgsPeer} {s : WgSession}
    (cur : Option ℕ) {ps : List PeerInfo}, Filled p s ps →
    (∀ peer ∈ peers, peer.config.Sound p) →
    (ps.map PeerInfo.pubkey ++ peers.map WgsPeer.pubkey).Nodup →
    ps.length + peers.length ≤ wgsMaxPeers →
    (∀ qs, peers.mapM WgsPeer.kept = some qs → ∃ s' cur', Filled p s' (ps ++ qs)
      ∧ Reads p resolve s cur (peers.flatMap (uapiPeer ntop)) s' cur')
    ∧ (peers.mapM WgsPeer.kept = none → Stops p resolve s cur (peers.flatMap (uapiPeer ntop)))
  | [], s, cur, ps, hs, _, _, _ => by
    refine ⟨fun qs hq => ?_, fun hn => by simp at hn⟩
    obtain rfl : [] = qs := by simpa using hq
    exact ⟨s, cur, by rwa [List.append_nil], .nil⟩
  | peer :: peers, s, cur, ps, hs, hsound, hnodup, hroom => by
    rw [List.length_cons] at hroom
    rw [List.map_cons] at hnodup
    have hpeer := hsound peer List.mem_cons_self
    have hfresh : peer.pubkey ∉ ps.map PeerInfo.pubkey := fun hm =>
      List.disjoint_of_nodup_append hnodup hm List.mem_cons_self
    obtain ⟨s₁, h1, hr1⟩ := hs.add resolve cur hpeer.pubkey hfresh (by omega)
    have hturn := turns_rest h ps hpeer
    rw [List.flatMap_cons, uapiPeer_eq]
    rcases hk : peer.kept with _ | q
    · rw [hk] at hturn
      refine ⟨fun qs hq => by simp [List.mapM_cons, hk] at hq, fun _ => ?_⟩
      exact (hr1.stops (hturn s₁ h1)).append _
    · rw [hk] at hturn
      obtain ⟨s₂, h2, hr2⟩ := hturn s₁ h1
      have hkeys : ((ps ++ [q]).map PeerInfo.pubkey ++ peers.map WgsPeer.pubkey).Nodup := by
        rw [List.map_append, List.map_singleton, kept_pubkey hk, List.append_assoc]
        exact hnodup
      have hlen : (ps ++ [q]).length + peers.length ≤ wgsMaxPeers := by
        rw [List.length_append, List.length_singleton]
        omega
      obtain ⟨hsome, hnone⟩ := peers_read h (some ps.length) h2
        (fun peer' hp => hsound peer' (List.mem_cons_of_mem peer hp)) hkeys hlen
      refine ⟨fun qs hq => ?_, fun hn => ?_⟩
      · simp only [List.mapM_cons, hk, Option.bind_eq_bind, Option.bind_some,
          Option.bind_eq_some_iff, Option.pure_def, Option.some.injEq] at hq
        obtain ⟨qs', hq', rfl⟩ := hq
        obtain ⟨s₃, cur₃, h3, hr3⟩ := hsome qs' hq'
        exact ⟨s₃, cur₃, by simpa using h3, (hr1.append hr2).append hr3⟩
      · refine (hr1.append hr2).stops (hnone ?_)
        rcases hm : peers.mapM WgsPeer.kept with _ | qs'
        · rfl
        · simp [List.mapM_cons, hk, hm] at hn

/-! ## A key of one's own -/

/-- No two peers in use have the same key. -/
def Distinct (s : WgSession) : Prop :=
  ∀ i j, (s.peers i).active → (s.peers j).active → (s.peers i).pubkey = (s.peers j).pubkey → i = j

theorem Distinct.of_same (h : Distinct s)
    (hs : ∀ i, (s'.peers i).active → (s.peers i).active ∧ (s.peers i).pubkey = (s'.peers i).pubkey) :
    Distinct s' := fun i j hi hj e => by
  obtain ⟨hi', ei⟩ := hs i hi
  obtain ⟨hj', ej⟩ := hs j hj
  exact h i j hi' hj' (ei.trans (e.trans ej.symm))

theorem Distinct.modPeer (h : Distinct s) {i : ℕ} {f : WgsPeer → WgsPeer}
    (hf : (f (s.peers i)).active → (s.peers i).active ∧ (s.peers i).pubkey = (f (s.peers i)).pubkey) :
    Distinct (s.modPeer i f) := h.of_same fun j => by
  rw [modPeer_peers]
  split
  · next e => exact e ▸ hf
  · exact fun ha => ⟨ha, rfl⟩

theorem setPeerKey_distinct {i : ℕ} {key val : Text} (h : Distinct s) :
    Distinct (setPeerKey p resolve s i key val).session := by
  have edit : ∀ {f : WgsPeer → WgsPeer}, (f (s.peers i)).active = (s.peers i).active →
      (f (s.peers i)).pubkey = (s.peers i).pubkey → Distinct (s.modPeer i f) := fun ha hp =>
    h.modPeer fun hf => ⟨ha ▸ hf, hp.symm⟩
  unfold setPeerKey
  split
  · split
    · simp only [SetResult.session, peerTombstone]
      split <;> exact Distinct.modPeer (f := fun _ => .blank) h fun hf => by cases hf
    · exact h
  split
  · split
    · exact h
    · next psk _ =>
      have h1 : Distinct (s.modPeer i fun peer =>
          { peer with psk, hasPsk := ¬ psk.all (· = 0) }) := edit rfl rfl
      simp only []
      split <;> exact h1
  split
  · split
    · exact h
    · next peer hpeer =>
      obtain ⟨host, port, addr, len, rfl⟩ := peerSetEndpointStr_some hpeer
      simp only [SetResult.session]
      exact edit rfl rfl
  split
  · simp only []
    split
    · exact h
    · simp only [SetResult.session]
      exact edit rfl rfl
  split
  · split
    · simp only [SetResult.session]
      exact edit rfl rfl
    · exact h
  split
  · split
    · exact h
    split
    · exact h
    · simp only [SetResult.session]
      exact edit rfl rfl
  · exact h

theorem setPublicKey_distinct {val : Text} (hacc : Accounted p s) (h : Distinct s) :
    Distinct (setPublicKey p s val).session := by
  unfold setPublicKey
  split
  · exact h
  next pk _ =>
  split
  · exact h
  next hnone =>
  have hfresh : ∀ i, (s.peers i).active → (s.peers i).pubkey ≠ pk := fun i ha hpk => by
    have := List.find?_eq_none.mp hnone i (List.mem_range.mpr (hacc.range i ha))
    exact this (decide_eq_true ⟨ha, hpk⟩)
  split
  · next h1 =>
    rw [SetResult.session, allocPeerSlot_none h1]
    exact h
  next s₁ i h1 =>
  obtain ⟨hp₁, -⟩ := allocPeerSlot_outside h1
  have hinit : ∀ {s' ok}, peerInitRuntime p s₁ i pk = (s', ok) → Distinct s' := fun {s' ok} hs => by
    obtain ⟨peer, hpeers, -, -, hinfo⟩ := peerInitRuntime_slot hs
    have hpk : peer.pubkey = pk := congrArg PeerInfo.pubkey hinfo
    intro j k hj hk e
    rw [hpeers, hp₁] at hj hk e
    simp only [Function.update_apply] at hj hk e
    split_ifs at hj hk e with hji hki hki
    · rw [hji, hki]
    · exact absurd (e.symm.trans hpk) (hfresh k hk)
    · exact absurd (e.trans hpk) (hfresh j hj)
    · exact h j k hj hk e
  split
  · next h2 => exact hinit h2
  · next h2 => exact hinit h2

theorem setLine_distinct (resolve : Resolver) (cur : Option ℕ) (line : Text) (hacc : Accounted p s) (h : Distinct s) :
    Distinct (setLine p resolve s cur line).session := by
  unfold setLine
  split
  · exact h
  unfold setKey
  split
  · exact h
  split
  · exact h
  split
  · simp only []
    split <;> exact h
  split
  · exact setPublicKey_distinct hacc h
  split
  · exact h
  · exact setPeerKey_distinct h

theorem setLines_distinct (resolve : Resolver) : ∀ (lines : List Text) {s : WgSession}
    {cur : Option ℕ}, Accounted p s →
    (∀ i, cur = some i → (s.peers i).active) → Distinct s →
    Distinct (setLines p resolve lines s cur).2
  | [], _, _, _, _, h => h
  | line :: lines, s, cur, hacc, hcur, h => by
    have hd := setLine_distinct resolve cur line hacc h
    unfold setLines
    split
    · next e =>
      rw [e] at hd
      exact hd
    · next e =>
      obtain ⟨hacc', hcur'⟩ := setLine_next hacc hcur e
      rw [e] at hd
      exact setLines_distinct resolve lines hacc' hcur' hd

theorem Distinct.nodup (h : Distinct s) : ((activePeers s).map WgsPeer.pubkey).Nodup := by
  unfold activePeers
  rw [List.map_map]
  refine (List.Nodup.filter _ List.nodup_range).map_on fun i hi j hj e => ?_
  exact h i j (List.mem_filter.mp hi).2 (List.mem_filter.mp hj).2 e

/-! ## Reading out and setting again -/

theorem kept_eq_info {peer : WgsPeer} : peer.kept = some peer.info ↔
    (0 ≤ peer.pkSec ∧ peer.pkSec ≤ 65535) ∧ (peer.endpointLen ≠ 0 →
      (peer.endpoint.family = afInet ∨ peer.endpoint.family = afInet6) ∧ peer.endpoint.port ≠ 0) := by
  unfold WgsPeer.kept WgsPeer.info
  split_ifs <;> simp_all

theorem mapM_kept_of : ∀ {peers : List WgsPeer}, (∀ peer ∈ peers, peer.kept = some peer.info) →
    peers.mapM WgsPeer.kept = some (peers.map WgsPeer.info)
  | [], _ => rfl
  | peer :: peers, h => by
    have ih := mapM_kept_of fun q hq => h q (List.mem_cons_of_mem peer hq)
    simp [List.mapM_cons, h peer List.mem_cons_self, ih]

theorem kept_of_mapM : ∀ {peers : List WgsPeer},
    peers.mapM WgsPeer.kept = some (peers.map WgsPeer.info) →
    ∀ peer ∈ peers, peer.kept = some peer.info
  | [], _ => fun _ h => absurd h List.not_mem_nil
  | peer :: peers, h => by
    simp only [List.mapM_cons, Option.bind_eq_bind, Option.bind_eq_some_iff, Option.pure_def,
      Option.some.injEq, List.map_cons, List.cons.injEq] at h
    obtain ⟨q, hq, qs, hqs, rfl, rfl⟩ := h
    rintro peer' hp
    rcases List.mem_cons.mp hp with rfl | hp
    · exact hq
    · exact kept_of_mapM hqs peer' hp

theorem activePeers_sound (h : Sound p s) : ∀ peer ∈ activePeers s, peer.config.Sound p :=
  fun peer hp => by
    obtain ⟨i, -, rfl⟩ := List.mem_map.mp hp
    exact h i

theorem uapiPeers_eq (ntop : ℕ → Bytes → Text) (s : WgSession) : uapiPeers ntop s
    = (activePeers s).flatMap (uapiPeer ntop) ++ (uapiField "errno".toList ['0'] ++ ['\n']) := by
  have hflat : ∀ is : List ℕ, is.flatMap
      (fun i => if (s.peers i).active then uapiPeer ntop (s.peers i) else [])
      = ((is.filter fun i => (s.peers i).active).map s.peers).flatMap (uapiPeer ntop) := by
    intro is
    induction is with
    | nil => rfl
    | cons i is ih =>
      rw [List.flatMap_cons, ih, List.filter_cons]
      split <;> rfl
  rw [uapiPeers, hflat, List.append_assoc]
  rfl

/-- Nothing in the text ends it early. -/
def Printable (t : Text) : Prop := ∀ c ∈ t, c ≠ Char.ofNat 0

theorem Printable.append {t u : Text} (ht : Printable t) (hu : Printable u) : Printable (t ++ u) :=
  fun c hc => (List.mem_append.mp hc).elim (ht c) (hu c)

theorem Plain.printable {t : Text} (h : Plain t) : Printable t := fun c hc => by
  have := h c hc
  simp only [plainChar, Bool.decide_and, Bool.and_eq_true, decide_eq_true_eq] at this
  exact this.2

theorem printable_field {key val : Text} (hk : Plain key) (hv : Plain val) :
    Printable (uapiField key val) :=
  hk.printable.append (Printable.append (t := ['=']) (by simp [Printable])
    (hv.printable.append (by simp [Printable])))

theorem printable_peer (h : Numeric p ntop resolve) (peer : WgsPeer) :
    Printable (uapiPeer ntop peer) := by
  have field : ∀ {key val : Text}, key ∈ ["public_key".toList, "preshared_key".toList,
      "endpoint".toList, "last_handshake_time_sec".toList, "last_handshake_time_nsec".toList,
      "tx_bytes".toList, "rx_bytes".toList, "persistent_keepalive_interval".toList,
      "allowed_ip".toList, "protocol_version".toList] → Plain val →
      Printable (uapiField key val) := fun {key _} hkey hval => by
    have hall : ∀ key ∈ ["public_key".toList, "preshared_key".toList, "endpoint".toList,
        "last_handshake_time_sec".toList, "last_handshake_time_nsec".toList, "tx_bytes".toList,
        "rx_bytes".toList, "persistent_keepalive_interval".toList, "allowed_ip".toList,
        "protocol_version".toList], Plain key := by
      simp [Plain, plainChar, isTrimmed]
    exact printable_field (hall key hkey) hval
  have hzero : Plain ['0'] := by simp [Plain, plainChar, isTrimmed]
  have hempty : Printable [] := fun _ hc => absurd hc List.not_mem_nil
  have hallowed : ∀ c ∈ peer.allowed, Printable (uapiAllowed ntop c) := fun c _ => by
    unfold uapiAllowed
    have entry : ∀ addr, Plain (ntop c.family addr ++ '/' :: fmtUnsigned c.prefixLen) :=
      fun addr => (h.plain _ _).append (.cons (by decide) (plain_fmtUnsigned _))
    simp only []
    split_ifs
    · exact field (by simp) (entry _)
    · exact field (by simp) (entry _)
    · exact hempty
  unfold uapiPeer uapiEndpoint
  simp only []
  refine ((((((((Printable.append ?_ ?_).append ?_).append ?_).append ?_).append ?_).append
    ?_).append ?_).append ?_).append ?_
  · exact field (by simp) (plain_hexEncode _)
  · refine field (by simp) ?_
    split
    · exact plain_hexEncode _
    · simp [Plain, plainChar, isTrimmed]
  · split_ifs
    · exact field (by simp) ((h.plain _ _).append (.cons (by decide) (plain_fmtUnsigned _)))
    · exact field (by simp) (.cons (by decide) ((h.plain _ _).append
        (.cons (by decide) (.cons (by decide) (plain_fmtUnsigned _)))))
    · exact hempty
    · exact hempty
  · refine field (by simp) ?_
    split
    · exact plain_fmtSigned _
    · exact hzero
  · exact field (by simp) hzero
  · exact field (by simp) (plain_fmtUnsigned _)
  · exact field (by simp) (plain_fmtUnsigned _)
  · split
    · exact field (by simp) (plain_fmtSigned _)
    · exact hempty
  · intro c hc
    obtain ⟨a, ha, hc⟩ := List.mem_flatMap.mp hc
    exact hallowed a ha c hc
  · exact field (by simp) (by simp [Plain, plainChar, isTrimmed])

theorem reads_errno (p : Prims) (resolve : Resolver) (s : WgSession) (cur : Option ℕ) :
    Reads p resolve s cur (uapiField "errno".toList ['0']) s cur := by
  refine reads_field ⟨by simp [Plain, plainChar, isTrimmed], by decide, by decide,
    by simp [Plain, plainChar, isTrimmed]⟩ ?_
  cases cur with
  | none =>
    unfold setKey
    rw [if_neg (by decide), if_neg (by decide), if_neg (by decide), if_neg (by decide)]
  | some k =>
    rw [setKey_peer "errno".toList _ (peerKeys_heeded _ (by simp))]
    unfold setPeerKey
    rw [if_neg (by decide), if_neg (by decide), if_neg (by decide), if_neg (by decide),
      if_neg (by decide), if_neg (by decide)]

/-- The peer part of what is read out of `s`, set in a session `t` without peers, is accepted and
gives the peers of `s`, if and only if these can be restored. -/
theorem restores_iff (hnum : Numeric p ntop resolve) {ok ok' : WgSession → Call → Prop}
    (hs : ReachableIf p ok s) (ht : ReachableIf p ok' t) (hempty : ∀ i, ¬ (t.peers i).active) :
    ((wgSessionSetUapi p resolve t (uapiPeers ntop s)).1 = 0
      ∧ (activePeers (wgSessionSetUapi p resolve t (uapiPeers ntop s)).2).map WgsPeer.info
        = (activePeers s).map WgsPeer.info) ↔ Restorable s := by
  have hsound := activePeers_sound (reachable_sound hs)
  have hacc := reachable_accounted ht
  have hfilled : Filled p t [] := ⟨hacc, Nat.zero_le _, fun i => by
    rw [if_neg (hempty i)]
    rfl⟩
  have hsmall : (activePeers s).length ≤ wgsMaxPeers := by
    unfold activePeers
    rw [List.length_map]
    refine (List.length_filter_le _ _).trans ?_
    rw [List.length_range]
    exact (reachable_accounted hs).small
  have hcstr : cstr (uapiPeers ntop s) = uapiPeers ntop s := by
    refine List.takeWhile_eq_self_iff.mpr fun c hc => decide_eq_true ?_
    rw [uapiPeers_eq] at hc
    rcases List.mem_append.mp hc with hc | hc
    · obtain ⟨peer, hp, hc⟩ := List.mem_flatMap.mp hc
      exact printable_peer hnum peer c hc
    · exact Printable.append (printable_field (by simp [Plain, plainChar, isTrimmed])
        (by simp [Plain, plainChar, isTrimmed])) (by simp [Printable]) c hc
  -- what the request comes to, once the peers have keys of their own
  have hread : ((activePeers s).map WgsPeer.pubkey).Nodup →
      (∀ qs, (activePeers s).mapM WgsPeer.kept = some qs →
        (wgSessionSetUapi p resolve t (uapiPeers ntop s)).1 = 0
        ∧ (activePeers (wgSessionSetUapi p resolve t (uapiPeers ntop s)).2).map WgsPeer.info = qs)
      ∧ ((activePeers s).mapM WgsPeer.kept = none →
        (wgSessionSetUapi p resolve t (uapiPeers ntop s)).1 = -1) := fun hnodup => by
    obtain ⟨hsome, hnone⟩ := peers_read hnum none hfilled hsound
      (by simpa using hnodup) (by simpa using hsmall)
    simp only [wgSessionSetUapi, hcstr]
    rw [uapiPeers_eq]
    refine ⟨fun qs hq => ?_, fun hn => hnone hn _⟩
    obtain ⟨t', cur', hfill, hr⟩ := hsome qs hq
    have hall := hr.append (reads_errno p resolve t' cur')
    have hend : setLines p resolve (strtok '\n' ['\n']) t' cur' = (0, t') := rfl
    rw [← List.append_assoc, hall, hend]
    refine ⟨rfl, ?_⟩
    obtain ⟨-, hpeers, hn⟩ := rebuildAips_outside t'
    have hsame : activePeers (rebuildAips t') = activePeers t' := by
      unfold activePeers
      rw [hpeers, hn]
    simp only [hsame, hfill.infos, List.nil_append]
  constructor
  · rintro ⟨hrc, hinfo⟩
    have hkeys : ((activePeers s).map WgsPeer.pubkey).Nodup := by
      have hd : Distinct (wgSessionSetUapi p resolve t (uapiPeers ntop s)).2 := by
        have := setLines_distinct resolve (strtok '\n' (cstr (uapiPeers ntop s))) hacc
          (fun i hc => absurd hc (Option.some_ne_none i).symm) fun i _ hi _ _ => absurd hi (hempty i)
        obtain ⟨-, hpeers, -⟩ := rebuildAips_outside
          (setLines p resolve (strtok '\n' (cstr (uapiPeers ntop s))) t none).2
        refine this.of_same fun i hi => ?_
        change ((rebuildAips _).peers i).active at hi
        change _ ∧ _ = ((rebuildAips _).peers i).pubkey
        rw [hpeers] at hi ⊢
        exact ⟨hi, rfl⟩
      have := congrArg (List.map PeerInfo.pubkey) hinfo
      simp only [List.map_map] at this
      have hpk : PeerInfo.pubkey ∘ WgsPeer.info = WgsPeer.pubkey := rfl
      rw [hpk] at this
      rw [← this]
      exact hd.nodup
    obtain ⟨hsome, hnone⟩ := hread hkeys
    rcases hm : (activePeers s).mapM WgsPeer.kept with _ | qs
    · rw [hnone hm] at hrc
      cases hrc
    · rw [← hinfo.symm.trans (hsome qs hm).2] at hm
      have hk := kept_of_mapM hm
      exact ⟨hkeys, fun peer hp => (kept_eq_info.mp (hk peer hp)).1,
        fun peer hp => (kept_eq_info.mp (hk peer hp)).2⟩
  · rintro ⟨hkeys, hpk, hep⟩
    exact (hread hkeys).1 _ (mapM_kept_of fun peer hp =>
      kept_eq_info.mpr ⟨hpk peer hp, hep peer hp⟩)

/-! ## Sessions that are and are not restored -/

namespace Specimen

def dotted (a : Bytes) : Text := ['.'].intercalate (a.map fun b => fmtUnsigned b.toNat)

/-- IPv4 texts are dotted, and IPv6 texts 32 hexadecimal digits. -/
def numericPton (family : ℕ) (t : Text) : Option Bytes :=
  if family = afInet6 then hexDecode t 16 else pton family t

def numericNtop (family : ℕ) (a : Bytes) : Text :=
  if family = afInet then dotted ((a ++ zeros 4).take 4) else hexEncode ((a ++ zeros 16).take 16)

def numericPrims : Prims := { specimen with inetPton := numericPton }

theorem pton_length {family : ℕ} {t : Text} {a : Bytes} (h : pton family t = some a) :
    a.length = 4 := by
  unfold pton at h
  simp only [] at h
  split at h
  · next hl => rw [← Option.some.inj h, List.length_map, hl.2]
  · cases h

def numericResolve : Resolver := fun host port =>
  match h4 : pton afInet host with
  | some a => some (⟨afInet, UInt16.ofNat port, a, 0, fun _ => pton_length h4,
      fun e => absurd e (by decide)⟩, sockaddrInLen)
  | none =>
    match h6 : hexDecode host 16 with
    | some a => some (⟨afInet6, UInt16.ofNat port, a, 0, fun e => absurd e (by decide),
        fun _ => hexDecode_length h6⟩, sockaddrIn6Len)
    | none => none

theorem dotted_parts {a : Bytes} (h : a ≠ []) :
    strtok '.' (dotted a) = a.map fun b => fmtUnsigned b.toNat := by
  unfold strtok dotted
  rw [List.splitOn_intercalate, List.filter_eq_self]
  · intro u hu
    obtain ⟨b, -, rfl⟩ := List.mem_map.mp hu
    exact decide_eq_true Nat.toDigits_ne_nil
  · intro u hu
    obtain ⟨b, -, rfl⟩ := List.mem_map.mp hu
    exact not_mem_fmtUnsigned (by decide)
  · simpa using h

theorem pton_dotted {a : Bytes} (h : a.length = 4) : pton afInet (dotted a) = some a := by
  have hne : a ≠ [] := by
    rintro rfl
    cases h
  unfold pton
  simp only [dotted_parts hne, List.length_map, h, and_self, if_true, List.map_map]
  congr 1
  refine (List.map_congr_left fun b _ => ?_).trans (List.map_id a)
  simp [digitsNat_fmtUnsigned]

theorem pton_hexEncode {a : Bytes} (h : a ≠ []) : pton afInet (hexEncode a) = none := by
  have hdot : '.' ∉ hexEncode a := fun hc => by
    have := hexEncode_bounds hc
    simp at this
  have hne : hexEncode a ≠ [] := fun e => by
    have := length_hexEncode a
    rw [e] at this
    exact h (List.length_eq_zero_iff.mp (by simpa using this.symm))
  unfold pton
  rw [strtok_word hdot hne]
  simp

theorem numericResolve_inet {host : Text} {a : Bytes} (h : pton afInet host = some a) (port : ℕ) :
    ∃ addr' len, numericResolve host port = some (addr', len)
      ∧ addr'.family = afInet ∧ addr'.addr = a ∧ addr'.port = UInt16.ofNat port := by
  unfold numericResolve
  split
  · next a' h' =>
    cases h.symm.trans h'
    exact ⟨_, _, rfl, rfl, rfl, rfl⟩
  · next h' => cases h.symm.trans h'

theorem numericResolve_inet6 {host : Text} {a : Bytes} (h4 : pton afInet host = none)
    (h6 : hexDecode host 16 = some a) (port : ℕ) :
    ∃ addr' len, numericResolve host port = some (addr', len)
      ∧ addr'.family = afInet6 ∧ addr'.addr = a ∧ addr'.port = UInt16.ofNat port := by
  unfold numericResolve
  split
  · next a' h' => cases h4.symm.trans h'
  · split
    · next a' h' =>
      cases h6.symm.trans h'
      exact ⟨_, _, rfl, rfl, rfl, rfl⟩
    · next h' => cases h6.symm.trans h'

theorem hexDigit_word : ∀ n < 16,
    (hexDigit n).isDigit ∨ ('a' ≤ hexDigit n ∧ hexDigit n ≤ 'f') := by
  decide

theorem hexEncode_word {a : Bytes} {c : Char} (h : c ∈ hexEncode a) :
    c.isDigit ∨ ('a' ≤ c ∧ c ≤ 'f') := by
  obtain ⟨b, -, hc⟩ := List.mem_flatMap.mp h
  obtain ⟨h1, h2, -⟩ := byte_nibbles b
  rcases List.mem_pair.mp hc with rfl | rfl
  · exact hexDigit_word _ h1
  · exact hexDigit_word _ h2

theorem dotted_word {c : Char} : ∀ {a : Bytes}, c ∈ dotted a → c.isDigit ∨ c = '.'
  | [], h => by cases h
  | [b], h => .inl (isDigit_of_mem_fmtUnsigned (by simpa [dotted] using h))
  | b :: b' :: a, h => by
    simp only [dotted, List.map_cons, List.intercalate_cons_cons, List.mem_append,
      List.mem_singleton] at h
    rcases h with (h | rfl) | h
    · exact .inl (isDigit_of_mem_fmtUnsigned h)
    · exact .inr rfl
    · exact dotted_word (a := b' :: a) h

theorem length_dotted {a : Bytes} (h : a.length = 4) :
    0 < (dotted a).length ∧ (dotted a).length ≤ 15 := by
  obtain ⟨b0, b1, b2, b3, rfl⟩ := List.length_eq_four.mp h
  have hle : ∀ b : UInt8, (fmtUnsigned b.toNat).length ≤ 3 := fun b =>
    (Nat.length_toDigits_le_iff (by decide) (by decide)).mpr
      (Nat.lt_of_lt_of_le b.toNat_lt (by decide))
  have h0 := hle b0
  have h1 := hle b1
  have h2 := hle b2
  have h3 := hle b3
  simp only [dotted, List.map_cons, List.map_nil, List.intercalate_cons_cons,
    List.intercalate_singleton, List.length_append, List.length_singleton]
  omega

end Specimen

open Specimen

theorem numeric_specimen : Numeric numericPrims numericNtop numericResolve where
  word := fun family a c hc => by
    unfold numericNtop at hc
    split at hc
    · rcases dotted_word hc with hd | hd
      · exact .inl hd
      · exact .inr (.inr (.inl hd))
    · rcases hexEncode_word hc with hd | hd
      · exact .inl hd
      · exact .inr (.inl hd)
  length_pos := fun family a => by
    unfold numericNtop
    split
    · exact (length_dotted (by simp [zeros])).1
    · rw [length_hexEncode]
      simp [zeros]
  length_le := fun family a => by
    unfold numericNtop
    split
    · exact (length_dotted (by simp [zeros])).2.trans (by decide)
    · rw [length_hexEncode]
      simp [zeros]
  pton4 := fun a h => by
    have : (a ++ zeros 4).take 4 = a := List.take_left' h
    show numericPton afInet (numericNtop afInet a) = some a
    rw [numericNtop, if_pos rfl, this, numericPton, if_neg (by decide)]
    exact pton_dotted h
  pton6 := fun a h => by
    have : (a ++ zeros 16).take 16 = a := List.take_left' h
    show numericPton afInet6 (numericNtop afInet6 a) = some a
    rw [numericNtop, if_neg (by decide), this, numericPton, if_pos rfl]
    exact hexDecode_hexEncode h
  apart := fun a h => by
    have : (a ++ zeros 16).take 16 = a := List.take_left' h
    show numericPton afInet (numericNtop afInet6 a) = none
    rw [numericNtop, if_neg (by decide), this, numericPton, if_neg (by decide)]
    exact pton_hexEncode (by rintro rfl; cases h)
  length4 := fun t a h => pton_length (h : pton afInet t = some a)
  length6 := fun t a h => hexDecode_length h
  resolved := fun addr h => by
    rcases h with h | h
    · have := pton_dotted (addr.v4 h)
      have he : numericNtop addr.family addr.addr = dotted addr.addr := by
        rw [numericNtop, if_pos h, List.take_left' (addr.v4 h)]
      obtain ⟨addr', len, hr, hf, ha, hp⟩ := numericResolve_inet this addr.port.toNat
      exact ⟨addr', len, he ▸ hr, hf.trans h.symm, ha, hp.trans UInt16.ofNat_toNat⟩
    · have hlen := addr.v6 h
      have hnone := pton_hexEncode (a := addr.addr) (by rintro e; rw [e] at hlen; cases hlen)
      have he : numericNtop addr.family addr.addr = hexEncode addr.addr := by
        rw [numericNtop, if_neg (by rw [h]; decide), List.take_left' hlen]
      obtain ⟨addr', len, hr, hf, ha, hp⟩ :=
        numericResolve_inet6 hnone (hexDecode_hexEncode hlen) addr.port.toNat
      exact ⟨addr', len, he ▸ hr, hf.trans h.symm, ha, hp.trans UInt16.ofNat_toNat⟩

namespace Specimen

/-- A session with the peer B, an address of it and these options. -/
def keeper (options : String) : Option WgSession :=
  wgSessionCreate numericPrims (names hostB)
    (conf keyA keyB ("Endpoint=b:51820\nAllowedIPs=10.0.0.2/32\n" ++ options))

/-- A session that has removed its only peer. -/
def emptied : Option WgSession :=
  (wgSessionCreate numericPrims (names hostA) (conf keyB keyA "AllowedIPs=10.0.0.1/32\n")).map
    fun s => (wgSessionSetUapi numericPrims numericResolve s (removal hexA)).2

/-- What `t` has after it is set to what `s` reads out. -/
def restored (s t : WgSession) : ℤ × List PeerInfo :=
  let r := wgSessionSetUapi numericPrims numericResolve t (uapiPeers numericNtop s)
  (r.1, (activePeers r.2).map WgsPeer.info)

end Specimen

theorem keeper_reachable {options : String} (h : keeper options = some s) :
    ReachableIf numericPrims (fun _ _ => True) s :=
  ⟨s, [], ⟨_, _, h⟩, .nil s⟩

theorem emptied_reachable (h : emptied = some s) :
    ReachableIf numericPrims (fun _ _ => True) s := by
  obtain ⟨s₀, h0, rfl⟩ := Option.map_eq_some_iff.mp h
  exact ⟨s₀, [.setUapi numericResolve (removal hexA)], ⟨_, _, h0⟩, .cons trivial rfl (.nil _)⟩

theorem emptied_inactive (h : emptied = some s) (i : ℕ) : ¬ (s.peers i).active := fun ha => by
  have hrun : emptied.all (fun s => decide (s.nPeers = 1 ∧ ¬ (s.peers 0).active)) = true := by
    decide +kernel
  rw [h] at hrun
  obtain ⟨hn, h0⟩ := of_decide_eq_true hrun
  have hi := (reachable_accounted (emptied_reachable h)).range i ha
  obtain rfl : i = 0 := by omega
  exact h0 ha

theorem restores_iff_keeper : ∃ s t, keeper "PersistentKeepalive=25\n" = some s
    ∧ emptied = some t ∧ (wgSessionSetUapi numericPrims numericResolve t
        (uapiPeers numericNtop s)).1 = 0
    ∧ (activePeers (wgSessionSetUapi numericPrims numericResolve t
        (uapiPeers numericNtop s)).2).map WgsPeer.info = (activePeers s).map WgsPeer.info
    ∧ (activePeers s).length = 1 := by
  have hrun : (keeper "PersistentKeepalive=25\n").any (fun s => emptied.any fun _ =>
      decide (((activePeers s).map WgsPeer.pubkey).Nodup ∧ (activePeers s).length = 1
        ∧ (∀ peer ∈ activePeers s, 0 ≤ peer.pkSec ∧ peer.pkSec ≤ 65535)
        ∧ ∀ peer ∈ activePeers s, peer.endpointLen ≠ 0 →
          (peer.endpoint.family = afInet ∨ peer.endpoint.family = afInet6)
            ∧ peer.endpoint.port ≠ 0)) = true := by
    decide +kernel
  obtain ⟨s, hs, hany⟩ := (Option.any_eq_true _ _).mp hrun
  obtain ⟨t, ht, hd⟩ := (Option.any_eq_true _ _).mp hany
  obtain ⟨hkeys, hone, hpk, hep⟩ := of_decide_eq_true hd
  have h := (restores_iff numeric_specimen (keeper_reachable hs) (emptied_reachable ht)
    (emptied_inactive ht)).mpr ⟨hkeys, hpk, hep⟩
  exact ⟨s, t, hs, ht, h.1, h.2, hone⟩

/-- A configuration may give an interval that a request may not. -/
theorem restores_not_all : ¬ ∀ s t, ReachableIf numericPrims (fun _ _ => True) s →
    ReachableIf numericPrims (fun _ _ => True) t → (∀ i, ¬ (t.peers i).active) →
    restored s t = (0, (activePeers s).map WgsPeer.info) := fun hall => by
  have hrun : (keeper "PersistentKeepalive=70000\n").any (fun s => emptied.any fun t =>
      decide ((restored s t).1 = -1)) = true := by
    decide +kernel
  obtain ⟨s, hs, hany⟩ := (Option.any_eq_true _ _).mp hrun
  obtain ⟨t, ht, hd⟩ := (Option.any_eq_true _ _).mp hany
  have h := hall s t (keeper_reachable hs) (emptied_reachable ht) (emptied_inactive ht)
  have hrc := of_decide_eq_true hd
  rw [h] at hrc
  cases hrc

end PolarWG
