import PolarWG.EndpointWatch
import PolarWG.Proofs.Restore
import PolarWG.Proofs.Convergence

/-!
# Drift that is none

An address is printed without brackets, and of a text with several colons the agent takes all for
the host. So what it compares with the answer of the name service is the address of an IPv4
endpoint, but the address and the port of an IPv6 one.
-/

namespace PolarWG

open Specimen

/-- What is documented of `inet_ntop`: the letters of its texts, the room they take, and that an
IPv6 text has two colons. -/
structure NtopTexts (ntop : ℕ → Bytes → Text) : Prop where
  v4 : ∀ a, a.length = 4 → (∀ c ∈ ntop afInet a, c.isDigit ∨ c = '.')
    ∧ 0 < (ntop afInet a).length ∧ (ntop afInet a).length ≤ 15
  v6 : ∀ a, a.length = 16 →
    (∀ c ∈ ntop afInet6 a, c.isDigit ∨ ('a' ≤ c ∧ c ≤ 'f') ∨ c = '.' ∨ c = ':')
    ∧ 2 ≤ (ntop afInet6 a).count ':' ∧ (ntop afInet6 a).length ≤ 45

variable {ntop : ℕ → Bytes → Text} {sa : Sockaddr}

/-! ## Splitting -/

theorem addressChar_bounds {c : Char} (h : c.isDigit ∨ ('a' ≤ c ∧ c ≤ 'f') ∨ c = '.' ∨ c = ':') :
    46 ≤ c.toNat ∧ c.toNat ≤ 102 ∧ c ≠ '[' := by
  rcases h with hd | ⟨ha, hf⟩ | rfl | rfl
  · have := isDigit_bounds hd
    refine ⟨by omega, by omega, ?_⟩
    rintro rfl
    cases hd
  · have ha' : 97 ≤ c.toNat := ha
    have hf' : c.toNat ≤ 102 := hf
    refine ⟨by omega, by omega, ?_⟩
    rintro rfl
    revert ha
    decide
  · decide
  · decide

theorem trimmed_address {s : Text}
    (hs : ∀ c ∈ s, c.isDigit ∨ ('a' ≤ c ∧ c ≤ 'f') ∨ c = '.' ∨ c = ':') : trimmed s = s :=
  trimmed_of_plain fun c hc => by
    obtain ⟨hlow, hhigh, -⟩ := addressChar_bounds (hs c hc)
    exact not_isWhitespaces_of_bounds ⟨by omega, by omega⟩

/-- What `Endpoint` makes of a text that starts with no bracket. -/
theorem ofText_unbracketed {s : Text} (hne : s ≠ [])
    (hs : ∀ c ∈ s, c.isDigit ∨ ('a' ≤ c ∧ c ≤ 'f') ∨ c = '.' ∨ c = ':') :
    Endpoint.ofText s = (if s.count ':' = 1 then
      some ⟨s.takeWhile (· ≠ ':'), intOfText (s.dropWhile (· ≠ ':')).tail⟩
      else some ⟨s, none⟩ : Option Endpoint).filter fun e => e.host ≠ [] := by
  obtain ⟨c, t, rfl⟩ := List.exists_cons_of_ne_nil hne
  have hc := (addressChar_bounds (hs c List.mem_cons_self)).2.2
  unfold Endpoint.ofText
  rw [trimmed_address hs]
  simp only []
  split
  · next h => cases h
  · next h => exact absurd (List.cons.inj h).1 hc
  · rfl

theorem ofText_single {host port : Text} (hh : ∀ c ∈ host, c.isDigit ∨ c = '.') (hne : host ≠ [])
    (hp : ∀ c ∈ port, c.isDigit) :
    Endpoint.ofText (host ++ ':' :: port) = some ⟨host, intOfText port⟩ := by
  have hhost : ∀ c ∈ host, c ≠ ':' := by
    rintro c hc rfl
    rcases hh ':' hc with h | h
    · cases h
    · revert h
      decide
  have hport : ':' ∉ port := fun h => by cases hp ':' h
  have hwords : ∀ c ∈ host ++ ':' :: port, c.isDigit ∨ ('a' ≤ c ∧ c ≤ 'f') ∨ c = '.' ∨ c = ':' := by
    intro c hc
    rcases List.mem_append.mp hc with hc | hc
    · exact (hh c hc).imp_right fun h => .inr (.inl h)
    · rcases List.mem_cons.mp hc with rfl | hc
      · exact .inr (.inr (.inr rfl))
      · exact .inl (hp c hc)
  have hcount : (host ++ ':' :: port).count ':' = 1 := by
    rw [List.count_append, List.count_eq_zero.mpr fun h => hhost _ h rfl, List.count_cons_self,
      List.count_eq_zero.mpr hport]
  have htake : (host ++ ':' :: port).takeWhile (· ≠ ':') = host := by
    rw [List.takeWhile_append_of_pos fun c hc => decide_eq_true (hhost c hc),
      List.takeWhile_cons_of_neg (by simp), List.append_nil]
  have hdrop : (host ++ ':' :: port).dropWhile (· ≠ ':') = ':' :: port := by
    rw [List.dropWhile_append_of_pos fun c hc => decide_eq_true (hhost c hc),
      List.dropWhile_cons_of_neg (by simp)]
  rw [ofText_unbracketed (by simp) hwords, if_pos hcount, htake, hdrop]
  exact Option.filter_eq_some_iff.mpr ⟨rfl, decide_eq_true hne⟩

theorem ofText_many {s : Text}
    (hs : ∀ c ∈ s, c.isDigit ∨ ('a' ≤ c ∧ c ≤ 'f') ∨ c = '.' ∨ c = ':') (hc : 2 ≤ s.count ':') :
    Endpoint.ofText s = some ⟨s, none⟩ := by
  have hne : s ≠ [] := by
    rintro rfl
    simp at hc
  rw [ofText_unbracketed hne hs, if_neg (by omega)]
  exact Option.filter_eq_some_iff.mpr ⟨rfl, decide_eq_true hne⟩

/-! ## What is printed -/

/-- The room suffices for the address and the port. -/
theorem fmtSockaddr_eq (hntop : NtopTexts ntop)
    (hf : sa.family = afInet ∨ sa.family = afInet6) :
    fmtSockaddr ntop sa fmtSockaddrLen
      = ntop sa.family sa.addr ++ ':' :: fmtUnsigned sa.port.toNat := by
  have hport : (fmtUnsigned sa.port.toNat).length ≤ 5 :=
    (Nat.length_toDigits_le_iff (by decide) (by decide)).mpr
      (Nat.lt_of_lt_of_le sa.port.toNat_lt (by decide))
  unfold fmtSockaddr
  rcases hf with h4 | h6
  · have hlen := (hntop.v4 sa.addr (sa.v4 h4)).2.2
    rw [if_pos h4, h4]
    refine List.take_of_length_le ?_
    simp only [List.length_append, List.length_cons, fmtSockaddrLen]
    omega
  · have hlen := (hntop.v6 sa.addr (sa.v6 h6)).2.2
    rw [if_neg (by rw [h6]; decide), if_pos h6, h6]
    refine List.take_of_length_le ?_
    simp only [List.length_append, List.length_cons, fmtSockaddrLen]
    omega

theorem ofText_inet (hntop : NtopTexts ntop) (h4 : sa.family = afInet) :
    Endpoint.ofText (fmtSockaddr ntop sa fmtSockaddrLen)
      = some ⟨ntop sa.family sa.addr, intOfText (fmtUnsigned sa.port.toNat)⟩ := by
  obtain ⟨hchars, hpos, -⟩ := hntop.v4 sa.addr (sa.v4 h4)
  rw [fmtSockaddr_eq hntop (.inl h4), h4]
  exact ofText_single hchars (List.ne_nil_of_length_pos hpos)
    fun c hc => isDigit_of_mem_fmtUnsigned hc

/-- The colon of the port is one more, so all of the text is the host. -/
theorem ofText_inet6 (hntop : NtopTexts ntop) (h6 : sa.family = afInet6) :
    Endpoint.ofText (fmtSockaddr ntop sa fmtSockaddrLen)
      = some ⟨ntop sa.family sa.addr ++ ':' :: fmtUnsigned sa.port.toNat, none⟩ := by
  obtain ⟨hchars, hcount, -⟩ := hntop.v6 sa.addr (sa.v6 h6)
  rw [fmtSockaddr_eq hntop (.inr h6), h6]
  refine ofText_many (fun c hc => ?_) ?_
  · rcases List.mem_append.mp hc with hc | hc
    · exact hchars c hc
    · rcases List.mem_cons.mp hc with rfl | hc
      · exact .inr (.inr (.inr rfl))
      · exact .inl (isDigit_of_mem_fmtUnsigned hc)
  · rw [List.count_append]
    omega

/-! ## Verdicts -/

variable {configured inUse : Option Text} {resolved : List Text} {age since : Option ℤ}
  {config : WatchConfig}

theorem diagnoseHandshake_ne_drifted (inUse : Option Text) (age : Option ℤ) (config : WatchConfig)
    (host : Text) (answer : List Text) :
    diagnoseHandshake inUse age config ≠ .endpointDrifted host answer := by
  unfold diagnoseHandshake
  rcases age with _ | age <;> simp only [] <;> split_ifs <;> exact Verdict.noConfusion

/-- A drift is reported where there is one and the last dialling is long enough ago. -/
theorem evaluate_ne_drifted_iff :
    (∀ host answer, evaluate configured inUse resolved age since config
        ≠ .endpointDrifted host answer)
      ↔ driftedHost configured inUse resolved = none
        ∨ ∃ sec, since = some sec ∧ sec < config.cooldownSec := by
  unfold evaluate diagnose
  rcases driftedHost configured inUse resolved with _ | host
  · refine iff_of_true (fun host answer => ?_) (.inl rfl)
    have hnot := diagnoseHandshake_ne_drifted inUse age config host answer
    revert hnot
    rcases diagnoseHandshake inUse age config <;> intro hnot <;> rcases since with _ | sec <;>
      simp only [] <;> (try split_ifs) <;> first | exact hnot | exact Verdict.noConfusion
  · rcases since with _ | sec
    · exact iff_of_false (fun h => h host resolved rfl) (by simp)
    · simp only []
      by_cases hlt : sec < config.cooldownSec
      · refine iff_of_true (fun host answer => ?_) (.inr ⟨sec, rfl, hlt⟩)
        rw [if_pos hlt]
        exact Verdict.noConfusion
      · refine iff_of_false (fun h => h host resolved (if_neg hlt)) ?_
        rintro (h | ⟨_, h, hlt'⟩)
        · cases h
        · cases h
          exact hlt hlt'

/-- The name service is compared with what `Endpoint` takes for the host in use. -/
theorem driftedHost_eq_none_iff {text : Text} {endpoint inUseEndpoint : Endpoint}
    {used answer : Text} (hend : Endpoint.ofText text = some endpoint)
    (hname : endpoint.isLiteralAddress = false) (hused : Endpoint.ofText used = some inUseEndpoint)
    (hres : answer ∈ resolved) :
    driftedHost (some text) (some used) resolved = none ↔ inUseEndpoint.host ∈ resolved := by
  have hne : resolved ≠ [] := List.ne_nil_of_mem hres
  simp only [driftedHost, Option.bind_eq_bind, Option.bind_some, hend, hused, hname, hne,
    Bool.false_eq_true, or_self, if_false, List.contains_iff_mem]
  split_ifs with h <;> simp [h]

/-- What is printed of an address has that address for its host exactly if it is IPv4. Where the
name service answers the address, that is then no drift; of an IPv6 address it is one unless the
answer has the text with the port too, or a dialling was too recent. -/
theorem no_false_drift_iff (hntop : NtopTexts ntop)
    (hf : sa.family = afInet ∨ sa.family = afInet6) {text : Text} {endpoint : Endpoint}
    (hend : Endpoint.ofText text = some endpoint) (hname : endpoint.isLiteralAddress = false)
    (hres : ntop sa.family sa.addr ∈ resolved) (age since : Option ℤ) (config : WatchConfig) :
    ((Endpoint.ofText (fmtSockaddr ntop sa fmtSockaddrLen)).map Endpoint.host
        = some (ntop sa.family sa.addr) ↔ sa.family = afInet)
      ∧ ((∀ host answer, evaluate (some text) (some (fmtSockaddr ntop sa fmtSockaddrLen)) resolved
          age since config ≠ .endpointDrifted host answer)
        ↔ sa.family = afInet
          ∨ ntop sa.family sa.addr ++ ':' :: fmtUnsigned sa.port.toNat ∈ resolved
          ∨ ∃ sec, since = some sec ∧ sec < config.cooldownSec) := by
  rw [evaluate_ne_drifted_iff]
  rcases hf with h4 | h6
  · have hof := ofText_inet hntop h4
    rw [driftedHost_eq_none_iff hend hname hof hres, hof]
    exact ⟨iff_of_true rfl h4, iff_of_true (.inl hres) (.inl h4)⟩
  · have hof := ofText_inet6 hntop h6
    have hne : sa.family ≠ afInet := by
      rw [h6]
      decide
    rw [driftedHost_eq_none_iff hend hname hof hres, hof, or_iff_right hne]
    refine ⟨iff_of_false (fun h => ?_) hne, Iff.rfl⟩
    have := congrArg List.length (Option.some.inj h)
    simp at this

/-! ## An IPv4 and an IPv6 address -/

namespace Specimen

/-- Groups of four hexadecimal digits, which is the text of an address without a zero digit in
front of a group. -/
def groups : Bytes → Text
  | hi :: lo :: hi' :: rest => hexEncode [hi, lo] ++ ':' :: groups (hi' :: rest)
  | a => hexEncode a

def groupsNtop (family : ℕ) (a : Bytes) : Text := if family = afInet then dotted a else groups a

theorem groups_word {c : Char} : ∀ {a : Bytes}, c ∈ groups a →
    c.isDigit ∨ ('a' ≤ c ∧ c ≤ 'f') ∨ c = '.' ∨ c = ':'
  | hi :: lo :: hi' :: rest, h => by
    rcases List.mem_append.mp h with h | h
    · exact (hexEncode_word h).imp_right .inl
    · rcases List.mem_cons.mp h with rfl | h
      · exact .inr (.inr (.inr rfl))
      · exact groups_word h
  | [], h => by cases h
  | [_], h => (hexEncode_word h).imp_right .inl
  | [_, _], h => (hexEncode_word h).imp_right .inl

theorem groups_size : ∀ {n : ℕ} {a : Bytes}, a.length = 2 * n + 2 →
    n ≤ (groups a).count ':' ∧ (groups a).length = 5 * n + 4
  | 0, [_, _], _ => ⟨Nat.zero_le _, by simp [groups, length_hexEncode]⟩
  | n + 1, hi :: lo :: hi' :: rest, h => by
    have hrest : (hi' :: rest).length = 2 * n + 2 := by
      simp only [List.length_cons] at h ⊢
      omega
    obtain ⟨hcount, hlen⟩ := groups_size hrest
    simp only [groups, List.count_append, List.count_cons_self, List.length_append,
      List.length_cons (a := ':'), length_hexEncode, hlen]
    exact ⟨by omega, by simp; omega⟩

def sin6 : Sockaddr :=
  ⟨afInet6, 1632, [0xfd, 0x12, 0x34, 0x56, 0x78, 0x9a, 0x1b, 0xcd, 0x2e, 0xf0, 0x12, 0x34, 0x56,
    0x78, 0x9a, 0xbc], 0, fun h => absurd h (by decide), fun _ => rfl⟩

def hubName : Text := "hub.example.org:1632".toList

end Specimen

theorem ntopTexts_groups : NtopTexts groupsNtop where
  v4 := fun _ h => ⟨fun _ hc => dotted_word hc, length_dotted h⟩
  v6 := fun a h => by
    obtain ⟨hcount, hlen⟩ := groups_size (n := 7) h
    exact ⟨fun _ hc => groups_word hc, (by decide : 2 ≤ 7).trans hcount,
      hlen.le.trans (by decide)⟩

/-- An IPv4 hub whose address the name service still answers is let alone. -/
theorem no_false_drift_v4 :
    (Endpoint.ofText (fmtSockaddr groupsNtop hostB fmtSockaddrLen)).map Endpoint.host
        = some (groupsNtop hostB.family hostB.addr)
      ∧ ∀ host answer, evaluate (some hubName) (some (fmtSockaddr groupsNtop hostB fmtSockaddrLen))
        [groupsNtop hostB.family hostB.addr] (some 20) none .standard
          ≠ .endpointDrifted host answer := by
  have hend : Endpoint.ofText hubName = some ⟨"hub.example.org".toList, some 1632⟩ := by decide
  have hf : hostB.family = afInet ∨ hostB.family = afInet6 := .inl rfl
  obtain ⟨hhost, hdrift⟩ := no_false_drift_iff ntopTexts_groups hf hend (by decide)
    List.mem_cons_self (some 20) none .standard
  exact ⟨hhost.mpr rfl, hdrift.mpr (.inl rfl)⟩

/-- An IPv6 hub whose address the name service still answers is taken for drifted. -/
theorem drifts_v6 : ¬ ∀ (sa : Sockaddr) (text : Text) (endpoint : Endpoint) (resolved : List Text)
    (age since : Option ℤ) (host : Text) (answer : List Text),
    (sa.family = afInet ∨ sa.family = afInet6) → Endpoint.ofText text = some endpoint →
    endpoint.isLiteralAddress = false → groupsNtop sa.family sa.addr ∈ resolved →
    evaluate (some text) (some (fmtSockaddr groupsNtop sa fmtSockaddrLen)) resolved age since
      .standard ≠ .endpointDrifted host answer := by
  intro h
  have hdrift : evaluate (some hubName) (some (fmtSockaddr groupsNtop sin6 fmtSockaddrLen))
      ["fd12:3456:789a:1bcd:2ef0:1234:5678:9abc".toList] (some 20) none .standard
        = .endpointDrifted "fd12:3456:789a:1bcd:2ef0:1234:5678:9abc:1632".toList
          ["fd12:3456:789a:1bcd:2ef0:1234:5678:9abc".toList] := by
    decide +kernel
  exact h sin6 hubName ⟨"hub.example.org".toList, some 1632⟩ _ (some 20) none _ _ (.inr rfl)
    (by decide) (by decide) (by decide) hdrift

end PolarWG
