import PolarWG.Proofs.Restore

/-!
# Two ways to an endpoint

The configuration text and the runtime request split an endpoint with code of their own. Only the
request's knows brackets, so what it makes of a literal in brackets, the other hands to the resolver
with the bracket on.
-/

namespace PolarWG

open Specimen

variable {p : Prims} {ntop : ℕ → Bytes → Text} {resolve : Resolver} {s : Text}

/-- `getaddrinfo` knows no host that starts with a bracket. -/
def Resolver.Unbracketed (resolve : Resolver) : Prop := ∀ host port, resolve ('[' :: host) port = none

/-- The host and the port of an endpoint that `split_endpoint` and `resolve_endpoint` accept. -/
def configEndpoint (resolve : Resolver) (s : Text) : Option (Text × ℕ) :=
  (splitEndpoint s).bind fun (host, port) => (resolve host port).map fun _ => (host, port)

/-- A request gives every peer the host and the port that a configuration does, or neither is
accepted. -/
def EndpointsAgree (resolve : Resolver) (s : Text) : Prop := ∀ peer : WgsPeer,
  (peerSetEndpointStr resolve peer s).map (fun peer => (peer.endpointHost, peer.endpointPort))
    = configEndpoint resolve s

/-- A host in brackets with a port, which the resolver knows without them. -/
def BracketedHost (resolve : Resolver) (s : Text) : Prop :=
  ∃ host portText port, s = '[' :: (host ++ ']' :: ':' :: portText) ∧ ']' ∉ host
    ∧ 0 < host.length ∧ host.length < 128 ∧ parsePort portText = some port
    ∧ (resolve host port).isSome

/-- Both accept the text and recover the address from it. -/
structure BothRecover (ntop : ℕ → Bytes → Text) (resolve : Resolver) (addr : Sockaddr)
    (s : Text) : Prop where
  config : configEndpoint resolve s = some (ntop addr.family addr.addr, addr.port.toNat)
  request : ∀ peer, ∃ peer', peerSetEndpointStr resolve peer s = some peer'
    ∧ peer'.endpointHost = ntop addr.family addr.addr ∧ peer'.endpointPort = addr.port.toNat
    ∧ peer'.endpoint.family = addr.family ∧ peer'.endpoint.addr = addr.addr
    ∧ peer'.endpoint.port = addr.port

/-! ## Splitting -/

theorem strchr_some {c : Char} {s t u : Text} (h : strchr c s = some (t, u)) :
    s = t ++ c :: u ∧ c ∉ t := by
  unfold strchr at h
  split at h
  · next hc =>
    obtain ⟨t', u', rfl, ht'⟩ := List.eq_append_cons_of_mem hc
    have := strchr_append (u := u') ht'
    unfold strchr at this
    rw [if_pos hc] at this
    rw [this] at h
    cases h
    exact ⟨rfl, ht'⟩
  · cases h

theorem strrchr_some {c : Char} {s t u : Text} (h : strrchr c s = some (t, u)) :
    s = t ++ c :: u := by
  obtain ⟨⟨after, before⟩, h, he⟩ := Option.map_eq_some_iff.mp h
  obtain ⟨hs, -⟩ := strchr_some h
  simp only [Prod.mk.injEq] at he
  obtain ⟨rfl, rfl⟩ := he
  have := congrArg List.reverse hs
  simpa using this

/-- What a request makes of an endpoint. -/
theorem peerSetEndpointStr_hosts (resolve : Resolver) (peer : WgsPeer) (s : Text) :
    (peerSetEndpointStr resolve peer s).map (fun peer => (peer.endpointHost, peer.endpointPort))
      = (splitEndpointSpec s).bind fun (host, port) => (resolve host port).map fun _ =>
        (host, port) := by
  unfold peerSetEndpointStr
  rcases splitEndpointSpec s with _ | ⟨host, port⟩
  · rfl
  · simp only [Option.bind_eq_bind, Option.bind_some]
    rcases resolve host port with _ | ⟨addr, len⟩ <;> rfl

/-- A configuration never accepts a text that starts with a bracket. -/
theorem configEndpoint_bracket (hr : resolve.Unbracketed) (t : Text) :
    configEndpoint resolve ('[' :: t) = none := by
  unfold configEndpoint splitEndpoint
  rcases hsplit : strrchr ':' ('[' :: t) with _ | ⟨host, portText⟩
  · rfl
  rw [Option.bind_some]
  simp only []
  split
  · rfl
  next hlen =>
  obtain ⟨c, rest, rfl⟩ := List.exists_cons_of_length_pos (Nat.pos_of_ne_zero (not_or.mp hlen).1)
  obtain ⟨rfl, -⟩ := List.cons.inj (strrchr_some hsplit)
  rcases parsePort portText with _ | port
  · rfl
  · show Option.map _ (resolve ('[' :: rest) port) = none
    rw [hr rest port]
    rfl

/-- What a request accepts that starts with a bracket. -/
theorem splitEndpointSpec_bracket {t host : Text} {port : ℕ}
    (h : splitEndpointSpec ('[' :: t) = some (host, port)) : ∃ portText,
    t = host ++ ']' :: ':' :: portText ∧ ']' ∉ host ∧ 0 < host.length ∧ host.length < 128
      ∧ parsePort portText = some port := by
  unfold splitEndpointSpec at h
  simp only [] at h
  split at h
  · next host' portText hclose =>
    obtain ⟨rfl, hno⟩ := strchr_some hclose
    obtain ⟨hlen, hport⟩ := Option.ite_none_left_eq_some.mp h
    obtain ⟨port', hport', he⟩ := Option.map_eq_some_iff.mp hport
    cases he
    exact ⟨portText, rfl, hno, by omega, by omega, hport'⟩
  · cases h

/-- Both agree on a text just when it is no literal in brackets that the resolver knows without
them. -/
theorem endpointsAgree_iff (hr : resolve.Unbracketed) (s : Text) :
    EndpointsAgree resolve s ↔ ¬ BracketedHost resolve s := by
  have hagree : EndpointsAgree resolve s ↔ ((splitEndpointSpec s).bind fun (host, port) =>
      (resolve host port).map fun _ => (host, port)) = configEndpoint resolve s :=
    ⟨fun h => (peerSetEndpointStr_hosts resolve .blank s).symm.trans (h .blank),
      fun h peer => (peerSetEndpointStr_hosts resolve peer s).trans h⟩
  rw [hagree]
  by_cases hb : ∃ t, s = '[' :: t
  · obtain ⟨t, rfl⟩ := hb
    rw [configEndpoint_bracket hr]
    constructor
    · rintro hnone ⟨host, portText, port, he, hclose, hpos, hlen, hport, hres⟩
      obtain ⟨-, rfl⟩ := List.cons.inj he
      have hspec : splitEndpointSpec ('[' :: (host ++ ']' :: ':' :: portText))
          = some (host, port) := by
        unfold splitEndpointSpec
        simp only [strchr_append hclose]
        rw [if_neg (by omega), hport]
        rfl
      rw [hspec, Option.bind_some] at hnone
      simp only [Option.map_eq_none_iff] at hnone
      rw [hnone] at hres
      cases hres
    · intro hno
      refine Option.bind_eq_none_iff.mpr fun ⟨host, port⟩ hspec => ?_
      obtain ⟨portText, rfl, hclose, hpos, hlen, hport⟩ := splitEndpointSpec_bracket hspec
      rcases hres : resolve host port with _ | a
      · show Option.map _ (resolve host port) = none
        rw [hres]
        rfl
      · exact absurd ⟨host, portText, port, rfl, hclose, hpos, hlen, hport, by rw [hres]; rfl⟩ hno
  · have hsame : splitEndpointSpec s = splitEndpoint s := by
      unfold splitEndpointSpec
      split
      · next rest => exact absurd ⟨rest, rfl⟩ hb
      · rfl
    refine iff_of_true (by rw [hsame]; rfl) ?_
    rintro ⟨host, portText, port, rfl, -⟩
    exact hb ⟨_, rfl⟩

/-! ## What is read out -/

theorem uapiField_inj {key val val' : Text} (h : uapiField key val = uapiField key val') :
    val = val' := by
  have := List.append_cancel_left h
  simpa using this

/-- An endpoint that is read out is an address of a family with a text. -/
theorem uapiEndpoint_eq {peer : WgsPeer} {value : Text}
    (h : uapiEndpoint ntop peer = uapiField "endpoint".toList value) :
    (peer.endpoint.family = afInet ∨ peer.endpoint.family = afInet6)
      ∧ value = endpointText ntop peer.endpoint := by
  have hne : uapiField "endpoint".toList value ≠ [] := by simp [uapiField]
  unfold uapiEndpoint at h
  split at h
  · simp only [] at h
    split at h
    · next hf => exact ⟨.inl hf, by rw [endpointText, if_pos hf, uapiField_inj h]⟩
    next hf4 =>
    split at h
    · next hf => exact ⟨.inr hf, by rw [endpointText, if_neg hf4, uapiField_inj h]⟩
    · exact absurd h.symm hne
  · exact absurd h.symm hne

theorem bothRecover_iff (hr : resolve.Unbracketed) (h : Numeric p ntop resolve) {addr : Sockaddr}
    (hf : addr.family = afInet ∨ addr.family = afInet6) :
    BothRecover ntop resolve addr (endpointText ntop addr)
      ↔ addr.family = afInet ∧ addr.port ≠ 0 := by
  have hspec := splitEndpointSpec_text h hf
  constructor
  · intro hboth
    by_cases h4 : addr.family = afInet
    · refine ⟨h4, fun hzero => ?_⟩
      obtain ⟨peer', hpeer, -⟩ := hboth.request .blank
      have := peerSetEndpointStr_hosts resolve .blank (endpointText ntop addr)
      rw [hpeer, hspec, if_pos hzero] at this
      cases this
    · have hconfig := hboth.config
      rw [endpointText, if_neg h4, configEndpoint_bracket hr] at hconfig
      cases hconfig
  · rintro ⟨h4, hport⟩
    rw [if_neg hport] at hspec
    obtain ⟨addr', len, hres, e1, e2, e3⟩ := h.resolved addr hf
    have hrequest : ∀ peer, ∃ peer', peerSetEndpointStr resolve peer (endpointText ntop addr)
        = some peer' ∧ peer'.endpointHost = ntop addr.family addr.addr
        ∧ peer'.endpointPort = addr.port.toNat ∧ peer'.endpoint.family = addr.family
        ∧ peer'.endpoint.addr = addr.addr ∧ peer'.endpoint.port = addr.port := fun peer => by
      unfold peerSetEndpointStr
      simp only [hspec, Option.bind_eq_bind, Option.bind_some, hres, Option.pure_def]
      exact ⟨_, rfl, rfl, rfl, e1, e2, e3⟩
    refine ⟨?_, hrequest⟩
    have hagree : ¬ BracketedHost resolve (endpointText ntop addr) := by
      rintro ⟨host, portText, port, he, -⟩
      rw [endpointText, if_pos h4] at he
      obtain ⟨c, u, hu⟩ := List.exists_cons_of_length_pos (h.length_pos afInet addr.addr)
      rw [hu, List.cons_append] at he
      have hc : _ ∧ _ ∧ _ ∧ c ≠ '[' ∧ _ := h.char (hu ▸ List.mem_cons_self : c ∈ ntop afInet addr.addr)
      exact hc.2.2.2.1 (List.cons.inj he).1
    rw [← (endpointsAgree_iff hr _).mpr hagree .blank, peerSetEndpointStr_hosts, hspec,
      Option.bind_some]
    show Option.map _ (resolve _ _) = _
    rw [hres]
    rfl

/-- A configuration and a request agree on an endpoint just when it is no literal in brackets, and
both take back what is read out just when that is an IPv4 address with a port. -/
theorem endpoints_agree_iff (hr : resolve.Unbracketed) :
    (∀ s, EndpointsAgree resolve s ↔ ¬ BracketedHost resolve s)
      ∧ ∀ p ntop, Numeric p ntop resolve → ∀ peer value,
        uapiEndpoint ntop peer = uapiField "endpoint".toList value →
        (BothRecover ntop resolve peer.endpoint value
          ↔ peer.endpoint.family = afInet ∧ peer.endpoint.port ≠ 0) := by
  refine ⟨endpointsAgree_iff hr, fun p ntop h peer value hvalue => ?_⟩
  obtain ⟨hf, rfl⟩ := uapiEndpoint_eq hvalue
  exact bothRecover_iff hr h hf

/-! ## An IPv4 and an IPv6 address -/

namespace Specimen

/-- `numericResolve`, which would read past a bracket. -/
def literalResolve : Resolver := fun host port =>
  match host with
  | '[' :: _ => none
  | host => numericResolve host port

theorem literalResolve_unbracketed : literalResolve.Unbracketed := fun _ _ => rfl

def endpointV6 : Text := '[' :: (hexEncode (zeros 16) ++ "]:51820".toList)

end Specimen

theorem numeric_literal : Numeric numericPrims numericNtop literalResolve where
  __ := numeric_specimen
  resolved := fun addr hf => by
    have hsame : literalResolve (numericNtop addr.family addr.addr) addr.port.toNat
        = numericResolve (numericNtop addr.family addr.addr) addr.port.toNat := by
      unfold literalResolve
      split
      · next t he =>
        have hc : _ ∧ _ ∧ _ ∧ '[' ≠ '[' ∧ _ := numeric_specimen.char (he ▸ List.mem_cons_self)
        exact absurd rfl hc.2.2.2.1
      · rfl
    rw [hsame]
    exact numeric_specimen.resolved addr hf

/-- A peer at an address that is read out as it was given. -/
def peerAtB : WgsPeer := { WgsPeer.blank with endpoint := hostB, endpointLen := 16 }

theorem endpoints_agree_v4 : EndpointsAgree literalResolve "10.0.0.2:51820".toList
    ∧ BothRecover numericNtop literalResolve hostB (endpointText numericNtop hostB) := by
  have h := endpoints_agree_iff literalResolve_unbracketed
  refine ⟨(h.1 _).mpr fun ⟨_, _, _, he, _⟩ => ?_, ?_⟩
  · cases (List.cons.inj he).1
  · exact (h.2 numericPrims numericNtop numeric_literal peerAtB _ rfl).mpr ⟨rfl, by decide⟩

/-- Of an IPv6 address in brackets only the request knows the host. -/
theorem endpoints_not_agreeing : ¬ ∀ resolve : Resolver, resolve.Unbracketed →
    ∀ s, EndpointsAgree resolve s := fun h => by
  have hspec : splitEndpointSpec endpointV6 = some (hexEncode (zeros 16), 51820)
      ∧ (literalResolve (hexEncode (zeros 16)) 51820).isSome := by
    decide +kernel
  have hagree := h _ literalResolve_unbracketed endpointV6 .blank
  rw [peerSetEndpointStr_hosts, endpointV6, configEndpoint_bracket literalResolve_unbracketed,
    ← endpointV6, hspec.1, Option.bind_some] at hagree
  have hnone := Option.map_eq_none_iff.mp hagree
  rw [hnone] at hspec
  cases hspec.2

end PolarWG
