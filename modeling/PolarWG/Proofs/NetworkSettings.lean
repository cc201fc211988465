import PolarWG.NetworkSettings
import PolarWG.Proofs.AllowedIps
import PolarWG.Proofs.Comparison
import PolarWG.Proofs.EndpointWatch
import PolarWG.Proofs.Mesh
import PolarWG.Proofs.PublicIP

/-!
# Outer traffic

The address that a peer is sent to is to be kept out of the tunnel. In full mode there is a route to
it alone among the excluded ones. In split mode nothing is excluded, so it is kept out only if no
network that is routed into the tunnel holds it.
-/

namespace PolarWG

open Routing

/-! ## Addresses as numbers -/

theorem addrNat_concat (a : Bytes) (b : UInt8) : addrNat (a ++ [b]) = 256 * addrNat a + b.toNat := by
  unfold addrNat
  rw [List.foldl_append]
  rfl

theorem addrNat_eq_leDec (a : Bytes) : addrNat a = leDec a.reverse := by
  induction a using List.reverseRecOn with
  | nil => rfl
  | append_singleton a b ih =>
    rw [addrNat_concat, List.reverse_append, List.reverse_singleton, List.singleton_append, leDec, ih]
    omega

theorem addrNat_beEnc (k n : ℕ) : addrNat (beEnc k n) = n % 256 ^ k := by
  rw [addrNat_eq_leDec, beEnc, List.reverse_reverse, leDec_leEnc]

theorem length_beEnc (k n : ℕ) : (beEnc k n).length = k := by
  rw [beEnc, List.length_reverse, length_leEnc]

theorem addrNat_lt (a : Bytes) : addrNat a < 256 ^ a.length := by
  induction a using List.reverseRecOn with
  | nil => exact Nat.one_pos
  | append_singleton a b ih =>
    have := b.toNat_lt
    rw [addrNat_concat, List.length_append, List.length_singleton, pow_succ]
    omega

theorem addrNat_inj {a b : Bytes} (hlen : a.length = b.length) (h : addrNat a = addrNat b) :
    a = b := by
  induction a using List.reverseRecOn generalizing b with
  | nil => exact (List.length_eq_zero_iff.mp hlen.symm).symm
  | append_singleton a x ih =>
    rcases List.eq_nil_or_concat b with rfl | ⟨b, y, rfl⟩
    · simp at hlen
    · rw [List.concat_eq_append] at *
      rw [List.length_append, List.length_append, List.length_singleton, List.length_singleton,
        Nat.add_right_cancel_iff] at hlen
      rw [addrNat_concat, addrNat_concat] at h
      have hx := x.toNat_lt
      have hy := y.toNat_lt
      have hxy : x = y := UInt8.toNat_inj.mp (by omega)
      rw [ih hlen (by omega), hxy]

theorem subnetMaskOf_lt (n : ℤ) : subnetMaskOf n < 2 ^ 32 := by
  unfold subnetMaskOf shiftLeft32
  split_ifs
  · exact Nat.two_pow_pos 32
  · exact Nat.mod_lt _ (Nat.two_pow_pos 32)
  · exact Nat.lt_of_le_of_lt (Nat.shiftRight_le _ _) (by decide)

/-! ## Texts of addresses -/

/-- A character of an address. -/
def AddressChar (c : Char) : Prop := c.isDigit ∨ ('a' ≤ c ∧ c ≤ 'f') ∨ c = '.' ∨ c = ':'

/-- What `inet_ntop` prints `inet_pton` reads. An IPv4 address is dotted; an IPv6 address is
hexadecimal, with two colons or more. -/
structure AddressTexts (p : Prims) (ntop : ℕ → Bytes → Text) : Prop where
  length4 : ∀ t a, p.inetPton afInet t = some a → a.length = 4
  length6 : ∀ t a, p.inetPton afInet6 t = some a → a.length = 16
  dotted : ∀ a, a.length = 4 → ntop afInet a = joined ['.'] (a.map fun b => fmtUnsigned b.toNat)
  pton4 : ∀ a, a.length = 4 → p.inetPton afInet (ntop afInet a) = some a
  pton6 : ∀ a, a.length = 16 → p.inetPton afInet6 (ntop afInet6 a) = some a
  apart : ∀ a, a.length = 4 → p.inetPton afInet6 (ntop afInet a) = none
  word : ∀ a, a.length = 16 → ∀ c ∈ ntop afInet6 a, AddressChar c
  colons : ∀ a, a.length = 16 → 2 ≤ (ntop afInet6 a).count ':'

theorem visible_address {t : Text} (h : ∀ c ∈ t, AddressChar c) : Visible t := fun c hc => by
  obtain ⟨hlow, hhigh, -⟩ := addressChar_bounds (h c hc)
  omega

theorem cstr_address {t : Text} (h : ∀ c ∈ t, AddressChar c) : cstr t = t :=
  List.takeWhile_eq_self_iff.mpr fun c hc => decide_eq_true fun e => by
    have hlow := (addressChar_bounds (h c hc)).1
    rw [e] at hlow
    simp at hlow

theorem dotted_char {bs : Bytes} {c : Char}
    (h : c ∈ joined ['.'] (bs.map fun b => fmtUnsigned b.toNat)) : c.isDigit ∨ c = '.' := by
  rcases mem_joined h with h | ⟨t, ht, hc⟩
  · exact .inr (List.mem_singleton.mp h)
  · obtain ⟨b, -, rfl⟩ := List.mem_map.mp ht
    exact .inl (isDigit_of_mem_fmtUnsigned hc)

theorem strrchr_last {c : Char} {s t u : Text} (h : strrchr c s = some (t, u)) :
    s = t ++ c :: u ∧ c ∉ u := by
  refine ⟨strrchr_some h, ?_⟩
  obtain ⟨⟨after, before⟩, h, he⟩ := Option.map_eq_some_iff.mp h
  rw [← (Prod.mk.inj he).2]
  exact fun hc => (strchr_some h).2 (List.mem_reverse.mp hc)

/-- A text of an address is a host as it stands, unless it has one colon. -/
theorem normalizeEndpointHost_address {t : Text} (h : ∀ c ∈ t, AddressChar c)
    (hcolons : ':' ∉ t ∨ 2 ≤ t.count ':') : normalizeEndpointHost t = t := by
  have htrim : trimmingWhitespacesAndNewlines t = t := by
    unfold trimmingWhitespacesAndNewlines
    rw [List.dropWhile_eq_self_iff.mpr fun hl => (visible_address h).not_white (List.getElem_mem hl)]
    exact (visible_address h).rdropWhile
  have hbracket : bracketedHost t = none := by
    unfold bracketedHost
    split
    · next inner => exact absurd rfl (addressChar_bounds (h '[' List.mem_cons_self)).2.2
    · rfl
  unfold normalizeEndpointHost
  simp only [htrim, hbracket]
  split
  · next host rest hlast =>
    obtain ⟨he, hrest⟩ := strrchr_last hlast
    split
    · next hone =>
      rcases hcolons with hc | hc
      · exact absurd (by rw [he]; simp) hc
      · rw [he, List.count_append, List.count_cons_self, List.count_eq_zero.mpr hone.2,
          List.count_eq_zero.mpr hrest] at hc
        omega
    · rfl
  · rfl

section Texts

variable {p : Prims} {env : ProviderEnv} (ht : AddressTexts p env.ntop)
include ht

theorem AddressTexts.char4 {a : Bytes} (ha : a.length = 4) {c : Char} (hc : c ∈ env.ntop afInet a) :
    c.isDigit ∨ c = '.' := dotted_char (ht.dotted a ha ▸ hc)

theorem AddressTexts.char {f : ℕ} {a : Bytes}
    (ha : (f = afInet ∧ a.length = 4) ∨ (f = afInet6 ∧ a.length = 16)) :
    ∀ c ∈ env.ntop f a, AddressChar c := fun c hc => by
  rcases ha with ⟨rfl, ha⟩ | ⟨rfl, ha⟩
  · exact (ht.char4 ha hc).imp_right fun h => .inr (.inl h)
  · exact ht.word a ha c hc

theorem AddressTexts.pton_inet {a : Bytes} (ha : a.length = 4) :
    ptonText p afInet (env.ntop afInet a) = some a := by
  unfold ptonText
  rw [cstr_address (ht.char (.inl ⟨rfl, ha⟩)), ht.pton4 a ha]

theorem AddressTexts.pton_inet6 {a : Bytes} (ha : a.length = 16) :
    ptonText p afInet6 (env.ntop afInet6 a) = some a := by
  unfold ptonText
  rw [cstr_address (ht.char (.inr ⟨rfl, ha⟩)), ht.pton6 a ha]

theorem AddressTexts.not_inet6 {a : Bytes} (ha : a.length = 4) :
    ptonText p afInet6 (env.ntop afInet a) = none := by
  unfold ptonText
  rw [cstr_address (ht.char (.inl ⟨rfl, ha⟩)), ht.apart a ha]

theorem hostRoutes_inet {a : Bytes} (ha : a.length = 4) :
    hostRoutes p env (env.ntop afInet a)
      = ([⟨env.ntop afInet a, "255.255.255.255".toList⟩], []) := by
  have hcolon : ':' ∉ env.ntop afInet a := fun hc => by
    rcases ht.char4 ha hc with h | h <;> simp at h
  have hhost := normalizeEndpointHost_address (ht.char (.inl ⟨rfl, ha⟩)) (.inl hcolon)
  have h4 : isIPv4Literal p (env.ntop afInet a) := by
    rw [isIPv4Literal, ht.pton_inet ha]
    rfl
  have h6 : ¬ isIPv6Literal p (env.ntop afInet a) := by
    rw [isIPv6Literal, ht.not_inet6 ha]
    exact Bool.false_ne_true
  unfold hostRoutes resolvedIPAddress
  simp only [hhost, h4, h6, true_or, if_true, if_false, Option.getD_some, Bool.false_eq_true]

theorem hostRoutes_inet6 {a : Bytes} (ha : a.length = 16) :
    hostRoutes p env (env.ntop afInet6 a) = ([], [⟨env.ntop afInet6 a, 128⟩]) := by
  have hhost := normalizeEndpointHost_address (ht.char (.inr ⟨rfl, ha⟩)) (.inr (ht.colons a ha))
  have h6 : isIPv6Literal p (env.ntop afInet6 a) := by
    rw [isIPv6Literal, ht.pton_inet6 ha]
    rfl
  unfold hostRoutes resolvedIPAddress
  simp only [hhost, h6, or_true, if_true, Option.getD_some]

end Texts

/-! ## What a route covers -/

section Covers

variable (p : Prims)

def covers4 (r : NEIPv4Route) (x : Bytes) : Prop :=
  x.length = 4 ∧ ∃ dest m, ptonText p afInet r.destinationAddress = some dest
    ∧ ptonText p afInet r.subnetMask = some m ∧ addrNat dest &&& addrNat m = addrNat x &&& addrNat m

def covers6 (r : NEIPv6Route) (x : Bytes) : Prop :=
  x.length = 16 ∧ ∃ dest, ptonText p afInet6 r.destinationAddress = some dest
    ∧ mask 128 dest r.networkPrefixLength.toNat = mask 128 x r.networkPrefixLength.toNat

/-- The network of `n` bits of an address holds another. -/
def InNetwork (family : ℕ) (net : Bytes) (n : ℕ) (x : Bytes) : Prop :=
  if family = afInet then mask 32 (net.take 4) n = mask 32 x n else mask 128 net n = mask 128 x n

/-- The tunnel keeps out what is sent to an address. -/
def OuterKeptOut (settings : NEPacketTunnelNetworkSettings) (x : Sockaddr) : Prop :=
  (x.family = afInet → KeptOut (covers4 p)
    ((settings.ipv4Settings.map (·.includedRoutes)).getD [])
    ((settings.ipv4Settings.map (·.excludedRoutes)).getD []) x.addr)
  ∧ (x.family = afInet6 → KeptOut (covers6 p)
    ((settings.ipv6Settings.map (·.includedRoutes)).getD [])
    ((settings.ipv6Settings.map (·.excludedRoutes)).getD []) x.addr)

/-- A network that split mode routes into the tunnel holds the address: one of the AllowedIPs but
those of no bits, an injected one, or the IPv4 network of an interface address. -/
def Enclosed (s : WgSession) (splitInjectedRoutes : Text) (x : Sockaddr) : Prop :=
  (∃ a ∈ s.ifAddrs, a.family = x.family)
  ∧ ((∃ i < s.nPeers, (s.peers i).active ∧ ∃ c ∈ (s.peers i).allowed,
        c.family = x.family ∧ c.prefixLen ≠ 0 ∧ InNetwork x.family c.addr c.prefixLen x.addr)
    ∨ (∃ cidr ∈ parseInjectedCIDRs p splitInjectedRoutes, cidr.family = x.family
        ∧ ∃ net, ptonText p x.family cidr.address = some net
          ∧ InNetwork x.family net cidr.prefixLen.toNat x.addr)
    ∨ (x.family = afInet ∧ ∃ a ∈ s.ifAddrs, a.family = afInet ∧ 0 ≤ a.prefixLen
        ∧ a.prefixLen ≤ 32 ∧ ∃ net, ptonText p afInet (ifaceAddrText a) = some net
          ∧ InNetwork afInet net a.prefixLen.toNat x.addr))

end Covers

/-! ## Masks -/

theorem and_subnetMaskOf {x : ℕ} {n : ℤ} (hx : x < 2 ^ 32) (h0 : 0 ≤ n) (h32 : n ≤ 32) :
    x &&& subnetMaskOf n = x / 2 ^ (32 - n.toNat) * 2 ^ (32 - n.toNat) := by
  obtain ⟨m, rfl⟩ := Int.eq_ofNat_of_zero_le h0
  have hm : m ≤ 32 := by omega
  have hsub : (32 - (m : ℤ)).toNat = 32 - m := by omega
  unfold subnetMaskOf
  split
  · next hz =>
    obtain rfl : m = 0 := by omega
    simpa using hx
  · unfold shiftLeft32
    rw [if_pos (by omega), hsub, Int.toNat_natCast]
    refine Nat.eq_of_testBit_eq fun i => ?_
    rw [Nat.testBit_and, Nat.testBit_mod_two_pow, Nat.testBit_shiftLeft, Nat.testBit_mul_two_pow,
      Nat.testBit_div_two_pow]
    have hones : ∀ j, (4294967295 : ℕ).testBit j = decide (j < 32) := fun j =>
      Nat.testBit_two_pow_sub_one 32 j
    rw [hones]
    by_cases hi : i < 32
    · by_cases hk : 32 - m ≤ i
      · have : i - (32 - m) < 32 := by omega
        have he : i - (32 - m) + (32 - m) = i := by omega
        simp [hi, hk, this, he]
      · simp [hk]
    · have hbit : x.testBit i = false :=
        Nat.testBit_lt_two_pow (Nat.lt_of_lt_of_le hx (Nat.pow_le_pow_right (by decide) (by omega)))
      by_cases hk : 32 - m ≤ i
      · have he : i - (32 - m) + (32 - m) = i := by omega
        simp [he, hbit]
      · simp [hk, hbit]

theorem and_mask {x : Bytes} {n : ℤ} (hx : x.length = 4) (h0 : 0 ≤ n) (h32 : n ≤ 32) :
    addrNat x &&& subnetMaskOf n = mask 32 x n.toNat := by
  have hlt := addrNat_lt x
  rw [hx] at hlt
  exact and_subnetMaskOf hlt h0 h32

/-- The network of an address, masked again, is itself. -/
theorem mask_masked {x : Bytes} {n : ℤ} (hx : x.length = 4) (h0 : 0 ≤ n) (h32 : n ≤ 32) :
    mask 32 (beEnc 4 (leDec x.reverse &&& subnetMaskOf n)) n.toNat = mask 32 x n.toNat := by
  have hlt : addrNat x &&& subnetMaskOf n < 256 ^ 4 :=
    Nat.lt_of_le_of_lt Nat.and_le_right (subnetMaskOf_lt n)
  rw [← and_mask (length_beEnc 4 _) h0 h32, ← and_mask hx h0 h32, ← addrNat_eq_leDec,
    addrNat_beEnc, Nat.mod_eq_of_lt hlt, Nat.and_assoc, Nat.and_self]

theorem mask_no_slash (n : ℤ) : '/' ∉ prefixLengthToSubnetMask n := fun h => by
  rcases mem_joined h with h | ⟨t, ht, h⟩
  · exact absurd (List.mem_singleton.mp h) (by decide)
  · have hdigits : ∃ n, t = fmtUnsigned n := by
      simp only [List.mem_cons, List.not_mem_nil, or_false] at ht
      rcases ht with rfl | rfl | rfl | rfl <;> exact ⟨_, rfl⟩
    obtain ⟨n, rfl⟩ := hdigits
    exact not_mem_fmtUnsigned (by decide) h

theorem routeKey_inj {d d' m m' : Text} (hm : '/' ∉ m) (hm' : '/' ∉ m')
    (h : d ++ '/' :: m = d' ++ '/' :: m') : d = d' ∧ m = m' := by
  have hd := strrchr_append (t := d) hm
  rw [h, strrchr_append hm'] at hd
  exact ⟨(Prod.mk.inj (Option.some.inj hd)).1.symm, (Prod.mk.inj (Option.some.inj hd)).2.symm⟩

theorem mem_dedupe4 {routes : List NEIPv4Route} (h : ∀ r ∈ routes, '/' ∉ r.subnetMask)
    {r : NEIPv4Route} : r ∈ dedupeIPv4Routes routes ↔ r ∈ routes := by
  refine mem_firsts_iff fun a ha b hb hkey => ?_
  obtain ⟨hd, hm⟩ := routeKey_inj (h a ha) (h b hb) hkey
  cases a
  cases b
  simp only [NEIPv4Route.mk.injEq]
  exact ⟨hd, hm⟩

theorem fmtSigned_no_slash (n : ℤ) : '/' ∉ fmtSigned n := by
  rcases n with n | n
  · exact not_mem_fmtUnsigned (by decide)
  · intro h
    rcases List.mem_cons.mp h with h | h
    · exact absurd h (by decide)
    · exact not_mem_fmtUnsigned (by decide) h

theorem mem_dedupe6 {routes : List NEIPv6Route} {r : NEIPv6Route} :
    r ∈ dedupeIPv6Routes routes ↔ r ∈ routes := by
  refine mem_firsts_iff fun a _ b _ hkey => ?_
  obtain ⟨hd, hm⟩ := routeKey_inj (fmtSigned_no_slash _) (fmtSigned_no_slash _) hkey
  cases a
  cases b
  simp only [NEIPv6Route.mk.injEq]
  exact ⟨hd, fmtSigned_inj hm⟩

section Coverage

variable {p : Prims} {env : ProviderEnv} (ht : AddressTexts p env.ntop)
include ht

theorem mask_eq_ntop (n : ℤ) :
    prefixLengthToSubnetMask n = env.ntop afInet (beEnc 4 (subnetMaskOf n)) := by
  unfold prefixLengthToSubnetMask
  rw [ht.dotted _ (length_beEnc 4 _)]
  generalize subnetMaskOf n = m
  have hbyte : ∀ v, (UInt8.ofNat v).toNat = v &&& 255 := fun v => by
    rw [UInt8.toNat_ofNat', Nat.and_two_pow_sub_one_eq_mod _ 8]
  simp only [beEnc, leEnc, List.reverse_cons, List.reverse_nil, List.nil_append, List.cons_append,
    List.map_cons, List.map_nil, hbyte, Nat.shiftRight_eq_div_pow, Nat.div_div_eq_div_mul]

theorem pton_mask (n : ℤ) :
    ptonText p afInet (prefixLengthToSubnetMask n) = some (beEnc 4 (subnetMaskOf n)) := by
  rw [mask_eq_ntop ht]
  exact ht.pton_inet (length_beEnc 4 _)

theorem pton_length4 {d : Text} {a : Bytes} (hd : ptonText p afInet d = some a) : a.length = 4 :=
  ht.length4 _ _ hd

theorem covers4_network {d : Text} {a x : Bytes} {n : ℤ} (hd : ptonText p afInet d = some a)
    (h0 : 0 ≤ n) (h32 : n ≤ 32) (hx : x.length = 4) :
    covers4 p ⟨d, prefixLengthToSubnetMask n⟩ x ↔ InNetwork afInet a n.toNat x := by
  have ha := pton_length4 ht hd
  have hm : addrNat (beEnc 4 (subnetMaskOf n)) = subnetMaskOf n := by
    rw [addrNat_beEnc]
    exact Nat.mod_eq_of_lt (subnetMaskOf_lt n)
  rw [InNetwork, if_pos rfl, List.take_of_length_le ha.le, ← and_mask ha h0 h32, ← and_mask hx h0 h32]
  constructor
  · rintro ⟨-, dest, m, hdest, hmt, he⟩
    obtain rfl := Option.some.inj (hd.symm.trans hdest)
    obtain rfl := Option.some.inj ((pton_mask ht n).symm.trans hmt)
    rwa [hm] at he
  · intro he
    exact ⟨hx, a, _, hd, pton_mask ht n, by rwa [hm]⟩

omit ht in
theorem covers6_network {d : Text} {a x : Bytes} {n : ℤ} (hd : ptonText p afInet6 d = some a)
    (hx : x.length = 16) : covers6 p ⟨d, n⟩ x ↔ InNetwork afInet6 a n.toNat x := by
  rw [InNetwork, if_neg (by decide)]
  constructor
  · rintro ⟨-, dest, hdest, he⟩
    obtain rfl := Option.some.inj (hd.symm.trans hdest)
    exact he
  · intro he
    exact ⟨hx, a, hd, he⟩

end Coverage

/-! ## Split mode -/

section Split

variable {p : Prims} {env : ProviderEnv} {s : WgSession} {splitInjectedRoutes : Text}

theorem mem_parseInjectedCIDRs {t : Text} {cidr : InjectedCIDR}
    (h : cidr ∈ parseInjectedCIDRs p t) : 0 ≤ cidr.prefixLen
      ∧ (cidr.family = afInet → cidr.prefixLen ≤ 32)
      ∧ ∃ a, ptonText p cidr.family cidr.address = some a := by
  obtain ⟨token, -, h⟩ := List.mem_filterMap.mp h
  simp only [] at h
  split at h
  · cases h
  · obtain ⟨n, -, h⟩ := Option.bind_eq_some_iff.mp h
    split_ifs at h with h4 h6
    · obtain rfl := Option.some.inj h
      exact ⟨h4.2.1, fun _ => h4.2.2, Option.isSome_iff_exists.mp h4.1⟩
    · obtain rfl := Option.some.inj h
      have hne : afInet6 ≠ afInet := by decide
      exact ⟨h6.2.1, fun hf => absurd hf hne, Option.isSome_iff_exists.mp h6.1⟩

theorem mem_peerAllowed {i f : ℕ} {t : Text} {n : ℤ} :
    (f, t, n) ∈ peerAllowed env s i ↔ (s.peers i).active ∧ ∃ c ∈ (s.peers i).allowed,
      f = c.family ∧ t = env.ntop f (if f = afInet then c.addr.take 4 else c.addr)
        ∧ n = c.prefixLen := by
  unfold peerAllowed
  split
  · next hactive =>
    simp only [hactive, true_and, List.mem_map, Prod.mk.injEq]
    constructor
    all_goals
      rintro ⟨c, hc, rfl, rfl, rfl⟩
      exact ⟨c, hc, rfl, rfl, rfl⟩
  · next hactive => simp [hactive]

theorem mem_allowedRoutes4 {allowed : List (ℕ × Text × ℤ)} {r : NEIPv4Route} :
    r ∈ allowedRoutes4 .split allowed ↔ ∃ t n, (afInet, t, n) ∈ allowed ∧ n ≠ 0
      ∧ r = ⟨t, prefixLengthToSubnetMask n⟩ := by
  simp only [allowedRoutes4, List.mem_filterMap]
  constructor
  · rintro ⟨⟨f, t, n⟩, hmem, hr⟩
    simp only [reduceCtorEq, if_false] at hr
    split at hr
    · cases hr
    · next hf =>
      rw [not_not] at hf
      split at hr
      · cases hr
      · next hn => exact ⟨t, n, hf ▸ hmem, hn, (Option.some.inj hr).symm⟩
  · rintro ⟨t, n, hmem, hn, rfl⟩
    exact ⟨_, hmem, by simp [hn]⟩

theorem mem_allowedRoutes6 {allowed : List (ℕ × Text × ℤ)} {r : NEIPv6Route} :
    r ∈ allowedRoutes6 .split allowed ↔ ∃ t n, (afInet6, t, n) ∈ allowed ∧ n ≠ 0 ∧ r = ⟨t, n⟩ := by
  simp only [allowedRoutes6, List.mem_filterMap]
  constructor
  · rintro ⟨⟨f, t, n⟩, hmem, hr⟩
    simp only [reduceCtorEq, if_false] at hr
    split at hr
    · cases hr
    · next hf =>
      rw [not_not] at hf
      split at hr
      · cases hr
      · next hn => exact ⟨t, n, hf ▸ hmem, hn, (Option.some.inj hr).symm⟩
  · rintro ⟨t, n, hmem, hn, rfl⟩
    exact ⟨_, hmem, by simp [hn]⟩

theorem mem_injectedRoutes4 {r : NEIPv4Route} : r ∈ injectedRoutes4 p splitInjectedRoutes ↔
    ∃ cidr ∈ parseInjectedCIDRs p splitInjectedRoutes, cidr.family = afInet
      ∧ r = ⟨cidr.address, prefixLengthToSubnetMask cidr.prefixLen⟩ := by
  simp only [injectedRoutes4, List.mem_map, List.mem_filter, decide_eq_true_eq, and_assoc, @eq_comm _ _ r]

theorem mem_injectedRoutes6 {r : NEIPv6Route} : r ∈ injectedRoutes6 p splitInjectedRoutes ↔
    ∃ cidr ∈ parseInjectedCIDRs p splitInjectedRoutes, cidr.family = afInet6
      ∧ r = ⟨cidr.address, cidr.prefixLen⟩ := by
  simp only [injectedRoutes6, List.mem_map, List.mem_filter, decide_eq_true_eq, and_assoc, @eq_comm _ _ r]

theorem mem_interfaceRoutes {addrs : List WgsIfaceAddr} {r : NEIPv4Route} :
    r ∈ interfaceRoutes p env addrs ↔ ∃ a ∈ addrs, ∃ net,
      networkAddress p env (ifaceAddrText a) a.prefixLen = some net
        ∧ r = ⟨net, prefixLengthToSubnetMask a.prefixLen⟩ := by
  simp only [interfaceRoutes, List.mem_filterMap, Option.map_eq_some_iff, @eq_comm _ _ r]

/-- The routes before those that are there already are left out. -/
theorem mem_included4 {r : NEIPv4Route} : r ∈ included4 p env s .split splitInjectedRoutes ↔
    (∃ i < s.nPeers, r ∈ allowedRoutes4 .split (peerAllowed env s i))
    ∨ r ∈ injectedRoutes4 p splitInjectedRoutes
    ∨ r ∈ interfaceRoutes p env (s.ifAddrs.filter (·.family = afInet)) := by
  unfold included4
  rw [mem_dedupe4, List.mem_append, List.mem_append, List.mem_flatMap, if_pos rfl, or_assoc]
  · simp only [List.mem_range]
  · intro r hr
    have hmask : ∃ n, r.subnetMask = prefixLengthToSubnetMask n := by
      rcases List.mem_append.mp hr with hr | hr
      · rcases List.mem_append.mp hr with hr | hr
        · obtain ⟨i, -, hr⟩ := List.mem_flatMap.mp hr
          obtain ⟨t, n, -, -, rfl⟩ := mem_allowedRoutes4.mp hr
          exact ⟨n, rfl⟩
        · obtain ⟨cidr, -, -, rfl⟩ := mem_injectedRoutes4.mp hr
          exact ⟨_, rfl⟩
      · obtain ⟨a, -, net, -, rfl⟩ := mem_interfaceRoutes.mp hr
        exact ⟨_, rfl⟩
    obtain ⟨n, hn⟩ := hmask
    exact hn ▸ mask_no_slash n

theorem mem_included6 {r : NEIPv6Route} : r ∈ included6 p env s .split splitInjectedRoutes ↔
    (∃ i < s.nPeers, r ∈ allowedRoutes6 .split (peerAllowed env s i))
    ∨ r ∈ injectedRoutes6 p splitInjectedRoutes := by
  unfold included6
  rw [mem_dedupe6, List.mem_append, List.mem_flatMap, if_pos rfl]
  simp only [List.mem_range]

variable (ht : AddressTexts p env.ntop) {x : Sockaddr}
include ht

theorem allowed4_covers (hs : Sound p s) (hx : x.family = afInet) {i : ℕ} :
    (∃ r ∈ allowedRoutes4 .split (peerAllowed env s i), covers4 p r x.addr) ↔
      (s.peers i).active ∧ ∃ c ∈ (s.peers i).allowed, c.family = x.family ∧ c.prefixLen ≠ 0
        ∧ InNetwork x.family c.addr c.prefixLen x.addr := by
  have hcovers : ∀ c ∈ (s.peers i).allowed, c.family = afInet →
      (covers4 p ⟨env.ntop afInet (c.addr.take 4), prefixLengthToSubnetMask c.prefixLen⟩ x.addr
        ↔ InNetwork afInet c.addr c.prefixLen x.addr) := fun c hc hf => by
    have hformed := hs.formed i c hc
    have h4 := hformed.v4 hf
    have htake : (c.addr.take 4).length = 4 := by
      rw [List.length_take, hformed.addr]
      rfl
    rw [covers4_network ht (ht.pton_inet htake) (by omega) (by omega) (x.v4 hx), InNetwork, if_pos rfl,
      Int.toNat_natCast, List.take_take, InNetwork, if_pos rfl]
    rfl
  rw [hx]
  constructor
  · rintro ⟨r, hr, hc⟩
    obtain ⟨t, n, hmem, hn, rfl⟩ := mem_allowedRoutes4.mp hr
    obtain ⟨hactive, c, hallowed, hf, rfl, rfl⟩ := mem_peerAllowed.mp hmem
    rw [if_pos rfl] at hc
    exact ⟨hactive, c, hallowed, hf.symm, by exact_mod_cast hn, (hcovers c hallowed hf.symm).mp hc⟩
  · rintro ⟨hactive, c, hmem, hf, hn, hnetwork⟩
    refine ⟨_, mem_allowedRoutes4.mpr ⟨_, _, mem_peerAllowed.mpr ⟨hactive, c, hmem, hf.symm, rfl, rfl⟩,
      by exact_mod_cast hn, rfl⟩, ?_⟩
    rw [if_pos rfl]
    exact (hcovers c hmem hf).mpr hnetwork

theorem allowed6_covers (hs : Sound p s) (hx : x.family = afInet6) {i : ℕ} :
    (∃ r ∈ allowedRoutes6 .split (peerAllowed env s i), covers6 p r x.addr) ↔
      (s.peers i).active ∧ ∃ c ∈ (s.peers i).allowed, c.family = x.family ∧ c.prefixLen ≠ 0
        ∧ InNetwork x.family c.addr c.prefixLen x.addr := by
  have hcovers : ∀ c ∈ (s.peers i).allowed,
      (covers6 p ⟨env.ntop afInet6 c.addr, c.prefixLen⟩ x.addr
        ↔ InNetwork afInet6 c.addr c.prefixLen x.addr) := fun c hc => by
    rw [covers6_network (ht.pton_inet6 (hs.formed i c hc).addr) (x.v6 hx), Int.toNat_natCast]
  rw [hx]
  constructor
  · rintro ⟨r, hr, hc⟩
    obtain ⟨t, n, hmem, hn, rfl⟩ := mem_allowedRoutes6.mp hr
    obtain ⟨hactive, c, hallowed, hf, rfl, rfl⟩ := mem_peerAllowed.mp hmem
    rw [if_neg (by decide)] at hc
    exact ⟨hactive, c, hallowed, hf.symm, by exact_mod_cast hn, (hcovers c hallowed).mp hc⟩
  · rintro ⟨hactive, c, hmem, hf, hn, hnetwork⟩
    refine ⟨_, mem_allowedRoutes6.mpr ⟨_, _, mem_peerAllowed.mpr ⟨hactive, c, hmem, hf.symm, rfl, rfl⟩,
      by exact_mod_cast hn, rfl⟩, ?_⟩
    rw [if_neg (by decide)]
    exact (hcovers c hmem).mpr hnetwork

theorem injected4_covers (hx : x.family = afInet) :
    (∃ r ∈ injectedRoutes4 p splitInjectedRoutes, covers4 p r x.addr) ↔
      ∃ cidr ∈ parseInjectedCIDRs p splitInjectedRoutes, cidr.family = x.family
        ∧ ∃ net, ptonText p x.family cidr.address = some net
          ∧ InNetwork x.family net cidr.prefixLen.toNat x.addr := by
  rw [hx]
  constructor
  · rintro ⟨r, hr, hc⟩
    obtain ⟨cidr, hmem, hf, rfl⟩ := mem_injectedRoutes4.mp hr
    obtain ⟨h0, h32, net, hnet⟩ := mem_parseInjectedCIDRs hmem
    rw [hf] at hnet
    exact ⟨cidr, hmem, hf, net, hnet, (covers4_network ht hnet h0 (h32 hf) (x.v4 hx)).mp hc⟩
  · rintro ⟨cidr, hmem, hf, net, hnet, hnetwork⟩
    obtain ⟨h0, h32, -⟩ := mem_parseInjectedCIDRs hmem
    exact ⟨_, mem_injectedRoutes4.mpr ⟨cidr, hmem, hf, rfl⟩,
      (covers4_network ht hnet h0 (h32 hf) (x.v4 hx)).mpr hnetwork⟩

omit ht in
theorem injected6_covers (hx : x.family = afInet6) :
    (∃ r ∈ injectedRoutes6 p splitInjectedRoutes, covers6 p r x.addr) ↔
      ∃ cidr ∈ parseInjectedCIDRs p splitInjectedRoutes, cidr.family = x.family
        ∧ ∃ net, ptonText p x.family cidr.address = some net
          ∧ InNetwork x.family net cidr.prefixLen.toNat x.addr := by
  rw [hx]
  constructor
  · rintro ⟨r, hr, hc⟩
    obtain ⟨cidr, hmem, hf, rfl⟩ := mem_injectedRoutes6.mp hr
    obtain ⟨-, -, net, hnet⟩ := mem_parseInjectedCIDRs hmem
    rw [hf] at hnet
    exact ⟨cidr, hmem, hf, net, hnet, (covers6_network hnet (x.v6 hx)).mp hc⟩
  · rintro ⟨cidr, hmem, hf, net, hnet, hnetwork⟩
    exact ⟨_, mem_injectedRoutes6.mpr ⟨cidr, hmem, hf, rfl⟩,
      (covers6_network hnet (x.v6 hx)).mpr hnetwork⟩

theorem networkAddress_covers {address t : Text} {n : ℤ}
    (h : networkAddress p env address n = some t) (hx : x.family = afInet) : 0 ≤ n ∧ n ≤ 32
      ∧ ∃ net, ptonText p afInet address = some net
        ∧ (covers4 p ⟨t, prefixLengthToSubnetMask n⟩ x.addr ↔ InNetwork afInet net n.toNat x.addr) := by
  unfold networkAddress at h
  split at h
  · next hrange =>
    obtain ⟨net, hnet, rfl⟩ := Option.map_eq_some_iff.mp h
    have hlen := pton_length4 ht hnet
    have hmasked := length_beEnc 4 (leDec net.reverse &&& subnetMaskOf n)
    refine ⟨hrange.1, hrange.2, net, hnet, ?_⟩
    rw [covers4_network ht (ht.pton_inet hmasked) hrange.1 hrange.2 (x.v4 hx), InNetwork, if_pos rfl,
      List.take_of_length_le hmasked.le, mask_masked hlen hrange.1 hrange.2, InNetwork, if_pos rfl,
      List.take_of_length_le hlen.le]
  · cases h

theorem interface_covers (hx : x.family = afInet) :
    (∃ r ∈ interfaceRoutes p env (s.ifAddrs.filter (·.family = afInet)), covers4 p r x.addr) ↔
      ∃ a ∈ s.ifAddrs, a.family = afInet ∧ 0 ≤ a.prefixLen ∧ a.prefixLen ≤ 32
        ∧ ∃ net, ptonText p afInet (ifaceAddrText a) = some net
          ∧ InNetwork afInet net a.prefixLen.toNat x.addr := by
  constructor
  · rintro ⟨r, hr, hc⟩
    obtain ⟨a, ha, t, ht', rfl⟩ := mem_interfaceRoutes.mp hr
    obtain ⟨hmem, hf⟩ := List.mem_filter.mp ha
    obtain ⟨h0, h32, net, hnet, hiff⟩ := networkAddress_covers ht ht' hx
    exact ⟨a, hmem, of_decide_eq_true hf, h0, h32, net, hnet, hiff.mp hc⟩
  · rintro ⟨a, hmem, hf, h0, h32, net, hnet, hnetwork⟩
    obtain ⟨t, ht'⟩ : ∃ t, networkAddress p env (ifaceAddrText a) a.prefixLen = some t := by
      unfold networkAddress
      rw [if_pos ⟨h0, h32⟩, hnet]
      exact ⟨_, rfl⟩
    obtain ⟨-, -, net', hnet', hiff⟩ := networkAddress_covers ht ht' hx
    obtain rfl := Option.some.inj (hnet.symm.trans hnet')
    exact ⟨_, mem_interfaceRoutes.mpr ⟨a, List.mem_filter.mpr ⟨hmem, decide_eq_true hf⟩, t, ht', rfl⟩,
      hiff.mpr hnetwork⟩

omit ht in
/-- Some peer's routes have a property. -/
theorem exists_route_iff {Route : Type*} {routes : ℕ → List Route} {covers : Route → Prop}
    {held : ℕ → Prop} (h : ∀ i, (∃ r ∈ routes i, covers r) ↔ held i) {n : ℕ} :
    (∃ r, (∃ i < n, r ∈ routes i) ∧ covers r) ↔ ∃ i < n, held i := by
  constructor
  · rintro ⟨r, ⟨i, hi, hr⟩, hc⟩
    exact ⟨i, hi, (h i).mp ⟨r, hr, hc⟩⟩
  · rintro ⟨i, hi, hheld⟩
    obtain ⟨r, hr, hc⟩ := (h i).mpr hheld
    exact ⟨r, ⟨i, hi, hr⟩, hc⟩

/-- What `Enclosed` says but that the tunnel has an address. -/
theorem included4_covers (hs : Sound p s) (hx : x.family = afInet)
    (haddr : ∃ a ∈ s.ifAddrs, a.family = x.family) :
    (∃ r ∈ included4 p env s .split splitInjectedRoutes, covers4 p r x.addr)
      ↔ Enclosed p s splitInjectedRoutes x := by
  simp only [mem_included4, or_and_right, exists_or]
  unfold Enclosed
  rw [injected4_covers ht hx, interface_covers ht hx, and_iff_right haddr, and_iff_right hx]
  exact or_congr_left (exists_route_iff fun i => allowed4_covers ht hs hx)

theorem included6_covers (hs : Sound p s) (hx : x.family = afInet6)
    (haddr : ∃ a ∈ s.ifAddrs, a.family = x.family) :
    (∃ r ∈ included6 p env s .split splitInjectedRoutes, covers6 p r x.addr)
      ↔ Enclosed p s splitInjectedRoutes x := by
  have hne : ¬ x.family = afInet := by
    rw [hx]
    decide
  simp only [mem_included6, or_and_right, exists_or]
  unfold Enclosed
  rw [injected6_covers hx, and_iff_right haddr]
  exact or_congr (exists_route_iff fun i => allowed6_covers ht hs hx)
    (or_iff_left fun h => hne h.1).symm

omit ht in
theorem exists_ifAddr_iff : s.ifAddrs.filter (·.family = x.family) ≠ []
    ↔ ∃ a ∈ s.ifAddrs, a.family = x.family := by
  simp only [ne_eq, List.filter_eq_nil_iff, decide_eq_true_eq, not_forall, not_not, exists_prop]

omit ht in
/-- A family without an address has no routes. -/
theorem not_enclosed (h : s.ifAddrs.filter (·.family = x.family) = []) :
    ¬ Enclosed p s splitInjectedRoutes x := fun henclosed =>
  exists_ifAddr_iff.mpr henclosed.1 h

/-- Split mode keeps out what no network that it routes holds. -/
theorem split_keptOut_iff (hs : Sound p s) {configText : Text} {dns : DNSPolicy}
    (hx : x.family = afInet ∨ x.family = afInet6) :
    OuterKeptOut p (buildNetworkSettings p env s configText .split splitInjectedRoutes dns) x
      ↔ ¬ Enclosed p s splitInjectedRoutes x := by
  unfold OuterKeptOut buildNetworkSettings ipv4Settings ipv6Settings
  rcases hx with hx | hx
  · rw [and_iff_left fun h => absurd (hx.symm.trans h) (by decide), imp_iff_right hx]
    simp only []
    split
    · next hnone => exact iff_of_true (.inl fun r hr => by cases hr) (not_enclosed (hx ▸ hnone))
    · next hsome =>
      have haddr := exists_ifAddr_iff.mp (hx ▸ hsome)
      rw [Option.map_some, Option.map_some, Option.getD_some, Option.getD_some]
      simp only []
      rw [keptOut_nil, ← included4_covers ht hs hx haddr]
      simp only [not_exists, not_and]
  · rw [and_iff_right fun h => absurd (hx.symm.trans h) (by decide), imp_iff_right hx]
    simp only []
    split
    · next hnone => exact iff_of_true (.inl fun r hr => by cases hr) (not_enclosed (hx ▸ hnone))
    · next hsome =>
      have haddr := exists_ifAddr_iff.mp (hx ▸ hsome)
      rw [Option.map_some, Option.map_some, Option.getD_some, Option.getD_some]
      simp only []
      rw [keptOut_nil, ← included6_covers ht hs hx haddr]
      simp only [not_exists, not_and]

end Split

/-! ## Full mode -/

section Full

variable {p : Prims} {env : ProviderEnv} (ht : AddressTexts p env.ntop) {s : WgSession}
  {configText splitInjectedRoutes : Text} {x : Sockaddr} {i : ℕ}

theorem endpoint_lt (h : wgSessionPeerEndpoint s i = some x) : i < s.nPeers := by
  unfold wgSessionPeerEndpoint at h
  simp only [] at h
  split at h
  · cases h
  · omega

theorem endpoint_family (h : wgSessionPeerEndpoint s i = some x) :
    x.family = afInet ∨ x.family = afInet6 := by
  unfold wgSessionPeerEndpoint at h
  simp only [] at h
  split_ifs at h with h1 h2 h3
  exact Option.some.inj h ▸ h3

theorem mem_endpointRoutes (h : wgSessionPeerEndpoint s i = some x) :
    (∀ r ∈ (hostRoutes p env (env.ntop x.family x.addr)).1, r ∈ (endpointRoutes p env s configText).1)
    ∧ ∀ r ∈ (hostRoutes p env (env.ntop x.family x.addr)).2,
      r ∈ (endpointRoutes p env s configText).2 := by
  have hmem : hostRoutes p env (env.ntop x.family x.addr)
      ∈ ((List.range s.nPeers).filterMap (peerEndpointHost env s)).map (hostRoutes p env) := by
    refine List.mem_map_of_mem (List.mem_filterMap.mpr ⟨i, List.mem_range.mpr (endpoint_lt h), ?_⟩)
    rw [peerEndpointHost, h]
    rfl
  unfold endpointRoutes
  simp only []
  generalize ((List.range s.nPeers).filterMap (peerEndpointHost env s)).map (hostRoutes p env)
    = routes at hmem
  split
  · next hnone =>
    -- no routes at all, so none to this host
    constructor
    · intro r hr
      have := List.mem_flatMap_of_mem hmem hr
      rw [hnone.1] at this
      cases this
    · intro r hr
      have := List.mem_flatMap_of_mem hmem hr
      rw [hnone.2] at this
      cases this
  · exact ⟨fun r => List.mem_flatMap_of_mem hmem, fun r => List.mem_flatMap_of_mem hmem⟩

theorem hostRoutes_masks {host : Text} {r : NEIPv4Route} (h : r ∈ (hostRoutes p env host).1) :
    '/' ∉ r.subnetMask := by
  unfold hostRoutes at h
  simp only [] at h
  split_ifs at h
  · cases h
  · rw [List.mem_singleton.mp h]
    exact (by decide : '/' ∉ "255.255.255.255".toList)
  · cases h

theorem endpointRoutes_masks {r : NEIPv4Route} (h : r ∈ (endpointRoutes p env s configText).1) :
    '/' ∉ r.subnetMask := by
  unfold endpointRoutes at h
  simp only [] at h
  split at h
  · split at h
    · exact hostRoutes_masks h
    · cases h
  · obtain ⟨routes, hroutes, hr⟩ := List.mem_flatMap.mp h
    obtain ⟨host, -, rfl⟩ := List.mem_map.mp hroutes
    exact hostRoutes_masks hr

include ht

theorem localPhysicalSubnets_masks {r : NEIPv4Route} (h : r ∈ localPhysicalSubnets env) :
    '/' ∉ r.subnetMask := by
  obtain ⟨ifa, -, h⟩ := List.mem_filterMap.mp (mem_of_mem_firsts h)
  split_ifs at h
  obtain rfl := Option.some.inj h
  intro hc
  rcases ht.char4 (length_beEnc 4 _) hc with hd | hd
  · exact absurd hd (by decide)
  · exact absurd hd (by decide)

theorem mem_excluded4 {r : NEIPv4Route} (h : r ∈ (endpointRoutes p env s configText).1) :
    r ∈ excluded4 p env s configText := by
  refine (mem_dedupe4 fun r hr => ?_).mpr (List.mem_append_left _ (List.mem_append_left _ h))
  rcases List.mem_append.mp hr with hr | hr
  · rcases List.mem_append.mp hr with hr | hr
    · exact endpointRoutes_masks hr
    · exact localPhysicalSubnets_masks ht hr
  · rw [List.mem_singleton.mp hr]
    decide

omit ht in
theorem mask_self {w : ℕ} (a : Bytes) : mask w a w = addrNat a := by
  rw [mask, Nat.sub_self, pow_zero, Nat.div_one, Nat.mul_one]

theorem covers4_host {a y : Bytes} (ha : a.length = 4) :
    covers4 p ⟨env.ntop afInet a, "255.255.255.255".toList⟩ y ↔ y = a := by
  have hmask : "255.255.255.255".toList = prefixLengthToSubnetMask 32 := by decide
  constructor
  · intro h
    have hy := h.1
    rw [hmask, covers4_network ht (ht.pton_inet ha) (by decide) (by decide) hy, InNetwork, if_pos rfl,
      List.take_of_length_le ha.le] at h
    rw [show (32 : ℤ).toNat = 32 from rfl, mask_self, mask_self] at h
    exact (addrNat_inj (ha.trans hy.symm) h).symm
  · rintro rfl
    rw [hmask, covers4_network ht (ht.pton_inet ha) (by decide) (by decide) ha, InNetwork, if_pos rfl,
      List.take_of_length_le ha.le]

theorem covers6_host {a y : Bytes} (ha : a.length = 16) :
    covers6 p ⟨env.ntop afInet6 a, 128⟩ y ↔ y = a := by
  constructor
  · intro h
    have hy := h.1
    rw [covers6_network (ht.pton_inet6 ha) hy, InNetwork, if_neg (by decide)] at h
    rw [show (128 : ℤ).toNat = 128 from rfl, mask_self, mask_self] at h
    exact (addrNat_inj (ha.trans hy.symm) h).symm
  · rintro rfl
    rw [covers6_network (ht.pton_inet6 ha) ha, InNetwork, if_neg (by decide)]

/-- In full mode what is sent to a host that has a route to it alone among the excluded ones. -/
theorem full_keptOut_of_host {dns : DNSPolicy}
    (h4 : ∀ r ∈ (hostRoutes p env (env.ntop x.family x.addr)).1,
      r ∈ (endpointRoutes p env s configText).1)
    (h6 : ∀ r ∈ (hostRoutes p env (env.ntop x.family x.addr)).2,
      r ∈ (endpointRoutes p env s configText).2) :
    OuterKeptOut p (buildNetworkSettings p env s configText .full splitInjectedRoutes dns) x := by
  unfold OuterKeptOut buildNetworkSettings ipv4Settings ipv6Settings
  constructor
  · intro hx
    simp only []
    split
    · exact .inl fun r hr => by cases hr
    · rw [hx, hostRoutes_inet ht (x.v4 hx)] at h4
      rw [Option.map_some, Option.map_some, Option.getD_some, Option.getD_some]
      exact keptOut_of_host (mem_excluded4 ht (h4 _ List.mem_cons_self))
        ((covers4_host ht (x.v4 hx)).mpr rfl) fun y hy => (covers4_host ht (x.v4 hx)).mp hy
  · intro hx
    simp only []
    split
    · exact .inl fun r hr => by cases hr
    · rw [hx, hostRoutes_inet6 ht (x.v6 hx)] at h6
      rw [Option.map_some, Option.map_some, Option.getD_some, Option.getD_some]
      exact keptOut_of_host (mem_dedupe6.mpr (h6 _ List.mem_cons_self))
        ((covers6_host ht (x.v6 hx)).mpr rfl) fun y hy => (covers6_host ht (x.v6 hx)).mp hy

/-- Without an endpoint of the session's, the text's first one is kept out. -/
theorem full_keptOut_text {dns : DNSPolicy} (hnone : ∀ i, wgSessionPeerEndpoint s i = none)
    (htext : firstEndpointHost configText = some (env.ntop x.family x.addr)) :
    OuterKeptOut p (buildNetworkSettings p env s configText .full splitInjectedRoutes dns) x := by
  have hroutes : endpointRoutes p env s configText
      = hostRoutes p env (env.ntop x.family x.addr) := by
    have hnil : (List.range s.nPeers).filterMap (peerEndpointHost env s) = [] := by
      refine List.filterMap_eq_nil_iff.mpr fun i _ => ?_
      rw [peerEndpointHost, hnone i]
      rfl
    unfold endpointRoutes
    rw [hnil, htext]
    rfl
  exact full_keptOut_of_host ht (fun r hr => hroutes ▸ hr) fun r hr => hroutes ▸ hr

end Full

namespace Specimen

/-- An IPv6 text is two colons and 32 hexadecimal digits. -/
def colonPton (family : ℕ) (t : Text) : Option Bytes :=
  if family = afInet6 then
    match t with
    | ':' :: ':' :: digits => hexDecode digits 16
    | _ => none
  else pton family t

def colonNtop (family : ℕ) (a : Bytes) : Text :=
  if family = afInet then dotted a else ':' :: ':' :: hexEncode a

def colonPrims : Prims := { specimen with inetPton := colonPton }

def offline : ProviderEnv := ⟨colonNtop, fun _ => none, []⟩

theorem colon_addressTexts : AddressTexts colonPrims offline.ntop where
  length4 := fun t a h => pton_length (h : pton afInet t = some a)
  length6 := fun t a h => by
    simp only [colonPrims, colonPton, if_true] at h
    split at h
    · exact hexDecode_length h
    · cases h
  dotted := fun a _ => rfl
  pton4 := fun a ha => pton_dotted ha
  pton6 := fun a ha => hexDecode_hexEncode ha
  apart := fun a _ => by
    have hcolon : ':' ∉ offline.ntop afInet a := fun hc => by
      rcases dotted_word hc with h | h <;> simp at h
    simp only [colonPrims, colonPton, if_true]
    split
    · next digits heq =>
      rw [heq] at hcolon
      exact absurd List.mem_cons_self hcolon
    · rfl
  word := fun a _ c hc => by
    rcases List.mem_cons.mp hc with rfl | hc
    · exact .inr (.inr (.inr rfl))
    · rcases List.mem_cons.mp hc with rfl | hc
      · exact .inr (.inr (.inr rfl))
      · exact (hexEncode_word hc).imp_right .inl
  colons := fun a _ => by
    have htext : offline.ntop afInet6 a = ':' :: ':' :: hexEncode a := rfl
    rw [htext, List.count_cons_self, List.count_cons_self]
    omega

/-- A session at 10.0.0.1/24 whose peer is at 192.0.2.2. -/
def tunnelled (allowed : String) : Option WgSession :=
  wgSessionCreate colonPrims (names hostB)
    ("[Interface]\nPrivateKey=".toList ++ keyA.toList ++ "\nAddress=10.0.0.1/24\n".toList
      ++ "[Peer]\nPublicKey=".toList ++ keyB.toList ++ "\nEndpoint=b:51820\nAllowedIPs=".toList
      ++ allowed.toList ++ "\n".toList)

theorem tunnelled_reachable {allowed : String} {s : WgSession} (h : tunnelled allowed = some s) :
    ReachableIf colonPrims (fun _ _ => True) s := ⟨s, [], ⟨_, _, h⟩, .nil s⟩

end Specimen

open Specimen

end PolarWG
