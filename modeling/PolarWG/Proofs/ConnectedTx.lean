import PolarWG.ConnectedTx
import PolarWG.Lib.Exact

/-!
# Where the client's datagrams go

The socket of a peer is connected to the endpoint that was compared with the peer's, and the peer's
is the address last passed, both up to what `sockaddr_same` leaves out: the scope.
-/

namespace PolarWG

variable {s s' : TxState}

/-! ## Addresses -/

structure SameAddr (d a : Sockaddr) : Prop where
  family : d.family = a.family
  port : d.port = a.port
  addr : d.addr = a.addr

structure SameDest (d a : Sockaddr) : Prop extends SameAddr d a where
  scope : a.family = afInet6 → d.scope = a.scope

theorem SameAddr.trans {a b c : Sockaddr} (h : SameAddr a b) (h' : SameAddr b c) : SameAddr a c :=
  ⟨h.family.trans h'.family, h.port.trans h'.port, h.addr.trans h'.addr⟩

theorem SameAddr.symm {a b : Sockaddr} (h : SameAddr a b) : SameAddr b a :=
  ⟨h.family.symm, h.port.symm, h.addr.symm⟩

theorem SameDest.refl (a : Sockaddr) : SameDest a a := ⟨⟨rfl, rfl, rfl⟩, fun _ => rfl⟩

def Inet (a : Sockaddr) : Prop := a.family = afInet ∨ a.family = afInet6

theorem sockaddrSame_iff {a b : Sockaddr} {alen blen : ℕ} (hb : Inet b) :
    sockaddrSame a alen b blen = true ↔ alen ≠ 0 ∧ blen ≠ 0 ∧ SameAddr a b := by
  unfold sockaddrSame
  split
  · next h =>
    refine ⟨(fun h' => by cases h'), fun ⟨h1, h2, h3⟩ => ?_⟩
    rcases h with h | h | h
    · exact absurd h h1
    · exact absurd h h2
    · exact absurd h3.family h
  next h =>
  simp only [not_or, not_not] at h
  obtain ⟨h1, h2, h3⟩ := h
  rw [if_pos (h3 ▸ hb), decide_eq_true_eq]
  exact ⟨fun ⟨h4, h5⟩ => ⟨h1, h2, h3, h4, h5⟩, fun ⟨_, _, h4⟩ => ⟨h4.port, h4.addr⟩⟩

theorem sockaddrLen_pos (a : Sockaddr) : 0 < sockaddrLen a ∧ sockaddrLen a ≤ sockaddrStorageLen := by
  unfold sockaddrLen sockaddrStorageLen
  split <;> omega

/-! ## The socket -/

/-- The peer's socket would be sent on as it is. -/
def TxState.Reused (s : TxState) : Prop :=
  s.gConnectedTx = true ∧ s.peer.txFd ≠ none
    ∧ sockaddrSame s.peer.txEp s.peer.txEpLen s.peer.endpoint s.peer.endpointLen = true

/-- What neither sending nor connecting changes. -/
structure Kept (s s' : TxState) : Prop where
  peer : s'.peer.toPeerState = s.peer.toPeerState
  last : s'.last = s.last
  port : s'.gBoundPort = s.gBoundPort
  enabled : s'.gConnectedTx = true → s.gConnectedTx = true

/-- The socket is the one there was, or one just connected to the endpoint, or there is none. -/
inductive TxSocket (s s' : TxState) : Prop where
  | same (hfd : s'.peer.txFd = s.peer.txFd) (hep : s'.peer.txEp = s.peer.txEp)
    (hlen : s'.peer.txEpLen = s.peer.txEpLen)
  | connected {sock : UdpSocket} (hfd : s'.peer.txFd = some sock)
    (hsock : sock.connected = some s.peer.endpoint) (hep : s'.peer.txEp = s.peer.endpoint)
    (hlen : s'.peer.txEpLen = s.peer.endpointLen) (hpos : s.peer.endpointLen ≠ 0)
    (hport : s.gBoundPort ≠ 0)
  | none (hfd : s'.peer.txFd = none)

/-- What `peer_tx_socket` hands out, and the state it leaves. -/
structure TxSocketSpec (s s' : TxState) (fd : Option UdpSocket) : Prop where
  kept : Kept s s'
  socket : TxSocket s s'
  handed : ∀ sock, fd = some sock → s.peer.endpointLen ≠ 0 ∧ s'.peer.txFd = some sock
    ∧ (s.Reused ∧ s.peer.txFd = some sock ∨ sock.connected = some s.peer.endpoint)

theorem txConnect_spec {s₁ : TxState} {sock : UdpSocket} (env : SendEnv) (hk : Kept s s₁)
    (hlen : s.peer.endpointLen ≠ 0) (hport : s.gBoundPort ≠ 0) :
    TxSocketSpec s (txConnect s₁ sock env).1 (txConnect s₁ sock env).2 := by
  have hep : s₁.peer.endpoint = s.peer.endpoint := congrArg PeerState.endpoint hk.peer
  have hepLen : s₁.peer.endpointLen = s.peer.endpointLen := congrArg PeerState.endpointLen hk.peer
  unfold txConnect
  simp only []
  split
  · exact ⟨⟨hk.peer, hk.last, hk.port, hk.enabled⟩, .none rfl, fun _ h => by cases h⟩
  · refine ⟨⟨hk.peer, hk.last, hk.port, hk.enabled⟩,
      .connected rfl (congrArg some hep) hep hepLen hlen hport, fun sock' h => ?_⟩
    cases h
    exact ⟨hlen, rfl, .inr (congrArg some hep)⟩

theorem peerTxSocket_spec (s : TxState) (env : SendEnv) :
    TxSocketSpec s (peerTxSocket s env).1 (peerTxSocket s env).2 := by
  have hsame : Kept s s := ⟨rfl, rfl, rfl, id⟩
  unfold peerTxSocket
  simp only []
  split
  · exact ⟨hsame, .same rfl rfl rfl, fun _ h => by cases h⟩
  next huse =>
  simp only [not_or, Bool.not_eq_true, Bool.not_eq_false] at huse
  obtain ⟨hg, hlen, hport⟩ := huse
  split
  · next hreuse => exact ⟨hsame, .same rfl rfl rfl, fun sock h => ⟨hlen, h, .inl ⟨⟨hg, hreuse⟩, h⟩⟩⟩
  split
  · exact ⟨hsame, .same rfl rfl rfl, fun _ h => by cases h⟩
  -- the socket of the other family is closed first
  have hk : Kept s { s with peer :=
      if s.peer.txFd ≠ none ∧ s.peer.txEp.family ≠ s.peer.endpoint.family then peerTxClose s.peer
      else s.peer } := by
    refine ⟨?_, rfl, rfl, id⟩
    simp only []
    split <;> rfl
  split
  · exact txConnect_spec env hk hlen hport
  · next hfd =>
    split
    · exact ⟨hk, .none hfd, fun _ h => by cases h⟩
    split
    · exact ⟨⟨hk.peer, hk.last, hk.port, fun h => by cases h⟩, .none hfd, fun _ h => by cases h⟩
    · exact txConnect_spec env hk hlen hport

/-- The socket is left as it is. -/
structure SameSocket (s s' : TxState) : Prop where
  fd : s'.peer.txFd = s.peer.txFd
  ep : s'.peer.txEp = s.peer.txEp
  len : s'.peer.txEpLen = s.peer.txEpLen

theorem TxSocket.keep {s₁ : TxState} (h : TxSocket s s₁) (h' : SameSocket s₁ s') : TxSocket s s' := by
  cases h with
  | same hfd hep hlen => exact .same (h'.fd.trans hfd) (h'.ep.trans hep) (h'.len.trans hlen)
  | connected hfd hsock hep hlen hpos hport =>
    exact .connected (h'.fd.trans hfd) hsock (h'.ep.trans hep) (h'.len.trans hlen) hpos hport
  | none hfd => exact .none (h'.fd.trans hfd)

theorem Kept.trans {s₁ : TxState} (h : Kept s s₁) (h' : Kept s₁ s') : Kept s s' :=
  ⟨h'.peer.trans h.peer, h'.last.trans h.last, h'.port.trans h.port, fun h1 => h.enabled (h'.enabled h1)⟩

theorem sendtoListener_spec (s : TxState) (ep : Sockaddr) (epLen : ℕ) (env : SendEnv) :
    Kept s (sendtoListener s ep epLen env).1 ∧ SameSocket s (sendtoListener s ep epLen env).1
      ∧ ∀ d ∈ (sendtoListener s ep epLen env).2.2, d = ep ∧ epLen ≠ 0 := by
  unfold sendtoListener logged
  split
  · exact ⟨⟨rfl, rfl, rfl, id⟩, ⟨rfl, rfl, rfl⟩, fun d hd => by cases hd⟩
  next hlen =>
  split
  · simp only []
    split <;> exact ⟨⟨rfl, rfl, rfl, id⟩, ⟨rfl, rfl, rfl⟩, fun d hd => by cases hd⟩
  · exact ⟨⟨rfl, rfl, rfl, id⟩, ⟨rfl, rfl, rfl⟩, fun d hd => ⟨List.mem_singleton.mp hd, hlen⟩⟩

/-- What a call of `peer_send` leaves, and where its datagrams go. -/
structure SendSpec (s s' : TxState) (out : List Sockaddr) : Prop where
  kept : Kept s s'
  socket : TxSocket s s'
  dest : ∀ d ∈ out, s.peer.endpointLen ≠ 0
    ∧ (d = s.peer.endpoint ∨ ∃ sock, s.Reused ∧ s.peer.txFd = some sock ∧ sock.connected = some d)

theorem peerSend_spec (s : TxState) (env : SendEnv) :
    SendSpec s (peerSend s env).1 (peerSend s env).2.2 := by
  obtain ⟨hk, hsock, hfd⟩ := peerTxSocket_spec s env
  unfold peerSend
  generalize peerTxSocket s env = res at *
  obtain ⟨s₁, fd⟩ := res
  simp only [] at hk hsock hfd ⊢
  have hep : s₁.peer.endpoint = s.peer.endpoint := congrArg PeerState.endpoint hk.peer
  have hepLen : s₁.peer.endpointLen = s.peer.endpointLen := congrArg PeerState.endpointLen hk.peer
  rw [hep, hepLen]
  cases fd with
  | none =>
    obtain ⟨h1, h2, h3⟩ := sendtoListener_spec s₁ s.peer.endpoint s.peer.endpointLen env
    exact ⟨hk.trans h1, hsock.keep h2, fun d hd => ⟨(h3 d hd).2, .inl (h3 d hd).1⟩⟩
  | some sock =>
    obtain ⟨hlen, hown, hconn⟩ := hfd sock rfl
    simp only []
    split
    · refine ⟨hk, hsock, fun d hd => ⟨hlen, ?_⟩⟩
      rcases hconn with ⟨hreuse, hold⟩ | hnew
      · exact .inr ⟨sock, hreuse, hold, Option.mem_toList.mp hd⟩
      · rw [hnew] at hd
        exact .inl (List.mem_singleton.mp hd)
    · exact ⟨hk, hsock, fun d hd => by cases hd⟩
    · exact ⟨hk, hsock, fun d hd => by cases hd⟩
    · have hlogged : ∀ now, (logged { s₁.peer with txSendErrs := s₁.peer.txSendErrs + 1 } now).txFd
          = some sock ∧ (logged { s₁.peer with txSendErrs := s₁.peer.txSendErrs + 1 } now).toPeerState
          = s₁.peer.toPeerState := fun now => by
        unfold logged
        split <;> exact ⟨hown, rfl⟩
      obtain ⟨hown', hpeer⟩ := hlogged env.sendNow
      generalize logged { s₁.peer with txSendErrs := s₁.peer.txSendErrs + 1 } env.sendNow = peer at *
      rw [if_pos hown']
      obtain ⟨h1, h2, h3⟩ := sendtoListener_spec { s₁ with peer := peerTxClose peer }
        s.peer.endpoint s.peer.endpointLen env
      have hclosed : Kept s₁ { s₁ with peer := peerTxClose peer } := ⟨hpeer, rfl, rfl, id⟩
      exact ⟨hk.trans (hclosed.trans h1), .none h2.fd, fun d hd => ⟨(h3 d hd).2, .inl (h3 d hd).1⟩⟩

/-! ## The invariant -/

/-- The endpoint is the address last passed but for its scope, and a socket is connected to what
`tx_ep` says. -/
structure TxInv (s : TxState) : Prop where
  known : ∀ a, s.last = some a → s.peer.endpointLen ≠ 0 ∧ SameAddr s.peer.endpoint a ∧ Inet a
  unknown : s.last = none → s.peer.endpointLen = 0
  sock : ∀ sock, s.peer.txFd = some sock →
    sock.connected = some s.peer.txEp ∧ 0 < s.peer.txEpLen ∧ s.gBoundPort ≠ 0

theorem TxInv.inet (h : TxInv s) (hlen : s.peer.endpointLen ≠ 0) :
    ∃ a, s.last = some a ∧ SameAddr s.peer.endpoint a ∧ Inet s.peer.endpoint := by
  rcases hl : s.last with _ | a
  · exact absurd (h.unknown hl) hlen
  · obtain ⟨-, haddr, hinet⟩ := h.known a hl
    unfold Inet
    rw [haddr.family]
    exact ⟨a, rfl, haddr, hinet⟩

theorem TxInv.send (h : TxInv s) {out : List Sockaddr} (hs : SendSpec s s' out) : TxInv s' := by
  obtain ⟨hk, hsock, -⟩ := hs
  have hep : s'.peer.endpoint = s.peer.endpoint := congrArg PeerState.endpoint hk.peer
  have hepLen : s'.peer.endpointLen = s.peer.endpointLen := congrArg PeerState.endpointLen hk.peer
  refine ⟨fun a ha => ?_, fun ha => ?_, fun sock hfd => ?_⟩
  · rw [hep, hepLen]
    exact h.known a (hk.last ▸ ha)
  · rw [hepLen]
    exact h.unknown (hk.last ▸ ha)
  · rw [hk.port]
    cases hsock with
    | same hfd' hep' hlen' =>
      rw [hep', hlen']
      exact h.sock sock (hfd' ▸ hfd)
    | connected hfd' hsock hep' hlen' hpos hport =>
      obtain rfl : _ = sock := Option.some.inj (hfd'.symm.trans hfd)
      rw [hep', hlen']
      exact ⟨hsock, Nat.pos_of_ne_zero hpos, hport⟩
    | none hfd' =>
      rw [hfd'] at hfd
      cases hfd

theorem TxInv.setEndpoint (h : TxInv s) {src : Sockaddr} (hsrc : Inet src) :
    TxInv (setEndpoint s src) := by
  obtain ⟨hpos, hle⟩ := sockaddrLen_pos src
  refine ⟨fun a ha => ?_, fun ha => ?_, h.sock⟩
  · obtain rfl : src = a := Option.some.inj ha
    simp only [PolarWG.setEndpoint, peerSetEndpoint, if_neg (show ¬ (sockaddrLen src = 0
      ∨ sockaddrStorageLen < sockaddrLen src) by omega)]
    split
    · next hsame =>
      obtain ⟨h1, -, h2⟩ := (sockaddrSame_iff hsrc).mp hsame
      exact ⟨h1, h2, hsrc⟩
    · exact ⟨hpos.ne', ⟨rfl, rfl, rfl⟩, hsrc⟩
  · cases ha

/-! ## Every datagram -/

/-- Whatever the system answers, a datagram goes to the address last passed, and a socket is
connected to what `tx_ep` says. -/
structure Addressed (s : TxState) : Prop where
  dest : ∀ env, ∀ d ∈ (peerSend s env).2.2, ∃ a, s.last = some a ∧ SameDest d a
  sock : ∀ sock, s.peer.txFd = some sock → sock.connected = some s.peer.txEp ∧ 0 < s.peer.txEpLen

/-- The same but for the scope. -/
structure NearlyAddressed (s : TxState) : Prop where
  dest : ∀ env, ∀ d ∈ (peerSend s env).2.2, ∃ a, s.last = some a ∧ SameAddr d a
  sock : ∀ sock, s.peer.txFd = some sock → sock.connected = some s.peer.txEp ∧ 0 < s.peer.txEpLen

/-- The endpoint, and the address of a socket that would be used as it is, have the scope too. -/
def Scoped (s : TxState) : Prop :=
  ∀ a, s.last = some a → SameDest s.peer.endpoint a ∧ (s.Reused → SameDest s.peer.txEp a)

theorem TxInv.nearly (h : TxInv s) : NearlyAddressed s := by
  refine ⟨fun env d hd => ?_, fun sock hfd => ⟨(h.sock sock hfd).1, (h.sock sock hfd).2.1⟩⟩
  obtain ⟨hlen, hdest⟩ := (peerSend_spec s env).dest d hd
  obtain ⟨a, ha, haddr, hinet⟩ := h.inet hlen
  refine ⟨a, ha, ?_⟩
  rcases hdest with rfl | ⟨sock, hreuse, hfd, hconn⟩
  · exact haddr
  · obtain rfl := Option.some.inj ((h.sock sock hfd).1.symm.trans hconn)
    exact ((sockaddrSame_iff hinet).mp hreuse.2.2).2.2.trans haddr

/-- A system where only `sendto` succeeds. -/
def onlySendto : SendEnv := ⟨0, false, false, false, 0, .failed, 0, true, 0⟩

/-- A system where all calls succeed. -/
def allSucceed : SendEnv := ⟨0, true, true, true, 0, .sent, 0, true, 0⟩

theorem peerSend_onlySendto (hlen : s.peer.endpointLen ≠ 0) :
    (peerSend s onlySendto).2.2 = [s.peer.endpoint] := by
  have hto : ∀ s₁ : TxState, (sendtoListener s₁ s.peer.endpoint s.peer.endpointLen onlySendto).2.2
      = [s.peer.endpoint] := fun s₁ => by
    rw [sendtoListener, if_neg hlen, if_neg (by decide)]
  have hk := (peerTxSocket_spec s onlySendto).kept
  have hep := congrArg PeerState.endpoint hk.peer
  have hepLen := congrArg PeerState.endpointLen hk.peer
  unfold peerSend
  generalize peerTxSocket s onlySendto = res at *
  obtain ⟨s₁, fd⟩ := res
  simp only [] at hep hepLen ⊢
  rw [hep, hepLen]
  cases fd with
  | none => exact hto s₁
  | some sock => exact hto _

theorem peerSend_reused {sock : UdpSocket} (hreuse : s.Reused) (hfd : s.peer.txFd = some sock)
    (hlen : s.peer.endpointLen ≠ 0) (hport : s.gBoundPort ≠ 0) :
    (peerSend s allSucceed).2.2 = sock.connected.toList := by
  have hres : peerTxSocket s allSucceed = (s, some sock) := by
    rw [peerTxSocket, if_neg (by simp [hreuse.1, hlen, hport]), if_pos hreuse.2, hfd]
  rw [peerSend, hres]
  rfl

theorem TxInv.addressed_iff (h : TxInv s) : Addressed s ↔ Scoped s := by
  constructor
  · intro haddr a ha
    have hlen := (h.known a ha).1
    refine ⟨?_, fun hreuse => ?_⟩
    · obtain ⟨a', ha', hdest⟩ := haddr.dest onlySendto s.peer.endpoint (by
        rw [peerSend_onlySendto hlen]
        exact List.mem_singleton_self _)
      obtain rfl := Option.some.inj (ha'.symm.trans ha)
      exact hdest
    · obtain ⟨sock, hfd⟩ := Option.ne_none_iff_exists'.mp hreuse.2.1
      obtain ⟨hconn, -, hport⟩ := h.sock sock hfd
      obtain ⟨a', ha', hdest⟩ := haddr.dest allSucceed s.peer.txEp (by
        rw [peerSend_reused hreuse hfd hlen hport, hconn]
        exact List.mem_singleton_self _)
      obtain rfl := Option.some.inj (ha'.symm.trans ha)
      exact hdest
  · intro hscoped
    refine ⟨fun env d hd => ?_, h.nearly.sock⟩
    obtain ⟨hlen, hdest⟩ := (peerSend_spec s env).dest d hd
    obtain ⟨a, ha, -⟩ := h.inet hlen
    obtain ⟨h1, h2⟩ := hscoped a ha
    refine ⟨a, ha, ?_⟩
    rcases hdest with rfl | ⟨sock, hreuse, hfd, hconn⟩
    · exact h1
    · obtain rfl := Option.some.inj ((h.sock sock hfd).1.symm.trans hconn)
      exact h2 hreuse

/-! ## The steps -/

/-- An address that is passed has the scope of the endpoint where it is otherwise the same, and
that of an enabled socket's address where it is otherwise the same as that. -/
def ScopeKept (s : TxState) : TxOp → Prop
  | .setEndpoint src =>
    (sockaddrSame s.peer.endpoint s.peer.endpointLen src.1 (sockaddrLen src.1) = true →
        SameDest s.peer.endpoint src.1)
      ∧ (s.gConnectedTx = true → s.peer.txFd ≠ none →
        sockaddrSame s.peer.txEp s.peer.txEpLen src.1 (sockaddrLen src.1) = true →
        SameDest s.peer.txEp src.1)
  | .send _ | .disabled => True

theorem setEndpoint_endpoint (s : TxState) (src : Sockaddr) :
    (setEndpoint s src).peer.toPeerState
      = if sockaddrSame s.peer.endpoint s.peer.endpointLen src (sockaddrLen src) = true
        then s.peer.toPeerState
        else { s.peer.toPeerState with endpoint := src, endpointLen := sockaddrLen src } := by
  obtain ⟨hpos, hle⟩ := sockaddrLen_pos src
  rw [setEndpoint, peerSetEndpoint, if_neg (by omega)]

theorem scoped_setEndpoint (h : TxInv s) (src : InetAddr) :
    Scoped (setEndpoint s src.1) ↔ ScopeKept s (.setEndpoint src) := by
  obtain ⟨hpos, -⟩ := sockaddrLen_pos src.1
  have hstate := setEndpoint_endpoint s src.1
  have hinv := h.setEndpoint src.2
  -- what would be reused is up to the scope what was passed
  have hreuse : (setEndpoint s src.1).Reused ↔ s.gConnectedTx = true ∧ s.peer.txFd ≠ none
      ∧ sockaddrSame s.peer.txEp s.peer.txEpLen src.1 (sockaddrLen src.1) = true := by
    obtain ⟨hlen, haddr, hinet⟩ := hinv.known src.1 rfl
    obtain ⟨-, -, -, hinet'⟩ := hinv.inet hlen
    unfold TxState.Reused
    rw [sockaddrSame_iff hinet', sockaddrSame_iff src.2]
    refine and_congr_right fun _ => and_congr_right fun _ => ?_
    exact ⟨fun ⟨h1, _, h3⟩ => ⟨h1, hpos.ne', h3.trans haddr⟩,
      fun ⟨h1, _, h3⟩ => ⟨h1, hlen, h3.trans haddr.symm⟩⟩
  have hep : SameDest (setEndpoint s src.1).peer.endpoint src.1
      ↔ (sockaddrSame s.peer.endpoint s.peer.endpointLen src.1 (sockaddrLen src.1) = true →
        SameDest s.peer.endpoint src.1) := by
    rw [hstate]
    split
    · next hsame => exact ⟨fun h _ => h, fun h => h hsame⟩
    · next hdiff => exact iff_of_true (SameDest.refl _) fun h => absurd h hdiff
  constructor
  · intro hscoped
    obtain ⟨h1, h2⟩ := hscoped src.1 rfl
    exact ⟨hep.mp h1, fun hg hfd hsame => h2 (hreuse.mpr ⟨hg, hfd, hsame⟩)⟩
  · rintro ⟨h1, h2⟩ a ha
    obtain rfl : src.1 = a := Option.some.inj ha
    exact ⟨hep.mpr h1, fun hr => h2 (hreuse.mp hr).1 (hreuse.mp hr).2.1 (hreuse.mp hr).2.2⟩

theorem Scoped.send {out : List Sockaddr} (h : Scoped s) (hs : SendSpec s s' out) : Scoped s' := by
  obtain ⟨hk, hsock, -⟩ := hs
  have hep : s'.peer.endpoint = s.peer.endpoint := congrArg PeerState.endpoint hk.peer
  have hepLen : s'.peer.endpointLen = s.peer.endpointLen := congrArg PeerState.endpointLen hk.peer
  intro a ha
  obtain ⟨h1, h2⟩ := h a (hk.last ▸ ha)
  refine ⟨hep ▸ h1, fun ⟨hg, hne, hsame⟩ => ?_⟩
  cases hsock with
  | same hfd hep' hlen' =>
    rw [hep', hlen', hep, hepLen] at hsame
    rw [hfd] at hne
    exact hep' ▸ h2 ⟨hk.enabled hg, hne, hsame⟩
  | connected _ _ hep' _ _ _ => exact hep' ▸ h1
  | none hfd => exact absurd hfd hne

theorem txStep_inv (h : TxInv s) {op : TxOp} {out : List Sockaddr}
    (hstep : txStep s op = some (s', out)) : TxInv s' := by
  cases op with
  | setEndpoint src =>
    cases hstep
    exact h.setEndpoint src.2
  | send env =>
    cases hstep
    exact h.send (peerSend_spec s env)
  | disabled =>
    cases hstep
    exact ⟨h.known, h.unknown, h.sock⟩

theorem txStep_scoped (h : TxInv s) (hscoped : Scoped s) {op : TxOp} {out : List Sockaddr}
    (hstep : txStep s op = some (s', out)) : Scoped s' ↔ ScopeKept s op := by
  cases op with
  | setEndpoint src =>
    cases hstep
    exact scoped_setEndpoint h src
  | send env =>
    cases hstep
    exact iff_of_true (hscoped.send (peerSend_spec s env)) trivial
  | disabled =>
    cases hstep
    exact iff_of_true (fun a ha => ⟨(hscoped a ha).1, fun hr => by cases hr.1⟩) trivial

/-- No socket yet, and an endpoint is the address that was passed. -/
structure TxStart (s : TxState) : Prop where
  noSocket : s.peer.txFd = none
  last : s.last = if s.peer.endpointLen = 0 then none else some s.peer.endpoint
  inet : s.peer.endpointLen ≠ 0 → Inet s.peer.endpoint

theorem TxStart.inv (h : TxStart s) : TxInv s ∧ Scoped s := by
  obtain ⟨hfd, hlast, hinet⟩ := h
  refine ⟨⟨fun a ha => ?_, fun ha => ?_, fun sock hs => ?_⟩, fun a ha => ⟨?_, fun hr => ?_⟩⟩
  · rw [hlast] at ha
    split at ha
    · cases ha
    · next hlen =>
      obtain rfl := Option.some.inj ha
      exact ⟨hlen, ⟨rfl, rfl, rfl⟩, hinet hlen⟩
  · by_contra hlen
    rw [hlast, if_neg hlen] at ha
    cases ha
  · rw [hfd] at hs
    cases hs
  · rw [hlast] at ha
    split at ha
    · cases ha
    · obtain rfl := Option.some.inj ha
      exact SameDest.refl _
  · exact absurd hfd hr.2.1

/-- In every state of a run all datagrams would go where they should exactly if each address passed
in it has the scopes of those it is taken for. But for the scope they always do. -/
theorem tx_addressed {s₀ : TxState} {ops : List TxOp} (hstart : TxStart s₀)
    (hrun : FreeRun txStep s₀ ops s) :
    (Always txStep Addressed s₀ ops ↔ Run txStep ScopeKept s₀ ops s)
      ∧ Always txStep NearlyAddressed s₀ ops := by
  obtain ⟨hinv, hscoped⟩ := hstart.inv
  constructor
  · refine hrun.always_iff TxInv hinv (hinv.addressed_iff.mpr hscoped)
      fun s op s' out hs haddr hstep => ?_
    have hs' := txStep_inv hs hstep
    exact ⟨hs'.addressed_iff.trans (txStep_scoped hs (hs.addressed_iff.mp haddr) hstep), fun _ => hs'⟩
  · intro is₁ is₂ t _ hrun'
    exact (hrun'.invariant TxInv hinv fun _ _ _ _ hs _ hstep => txStep_inv hs hstep).nearly

namespace Specimen

/-- A link-local address on one of the host's links. -/
def linkLocal (port : UInt16) (scope : ℕ) : InetAddr :=
  ⟨⟨afInet6, port, [0xfe, 0x80] ++ zeros 13 ++ [1], scope, by decide, by decide⟩, .inr rfl⟩

def txStart : TxState where
  peer := ⟨⟨.unspec, 0, 0, 0, 0⟩, none, .unspec, 0, 0, 0, 0⟩
  gConnectedTx := true
  gBoundPort := 51820
  last := none

theorem txStart_start : TxStart txStart := ⟨rfl, rfl, fun h => absurd rfl h⟩

end Specimen

open Specimen

/-- A peer that moves to another port, and then to the same port on another link. -/
theorem tx_addressed_moving : Always txStep Addressed txStart
    [.setEndpoint (linkLocal 1 1), .send allSucceed, .setEndpoint (linkLocal 2 2),
      .send allSucceed, .setEndpoint (linkLocal 1 2)] := by
  obtain ⟨s, hrun⟩ : ∃ s, Run txStep ScopeKept txStart
      [.setEndpoint (linkLocal 1 1), .send allSucceed, .setEndpoint (linkLocal 2 2),
        .send allSucceed, .setEndpoint (linkLocal 1 2)] s := by
    refine ⟨_, .cons ⟨fun h => ?_, fun _ h => ?_⟩ rfl (.cons trivial rfl
      (.cons ⟨fun h => ?_, fun _ _ h => ?_⟩ rfl (.cons trivial rfl
        (.cons ⟨fun h => ?_, fun _ _ h => ?_⟩ rfl (.nil _)))))⟩
    · exact absurd h (by decide)
    · exact absurd rfl h
    · exact absurd h (by decide)
    · exact absurd h (by decide)
    · exact absurd h (by decide)
    · exact absurd h (by decide)
  exact (tx_addressed txStart_start (hrun.mono fun _ _ _ => trivial)).1.mpr hrun

/-- The same link-local address on another link is taken for the one before. -/
theorem tx_wrong_link : ¬ ∀ s₀ ops s, TxStart s₀ → FreeRun txStep s₀ ops s →
    Always txStep Addressed s₀ ops := by
  intro hall
  have hrun : FreeRun txStep txStart [.setEndpoint (linkLocal 1 1), .setEndpoint (linkLocal 1 2)]
      (setEndpoint (setEndpoint txStart (linkLocal 1 1).1) (linkLocal 1 2).1) :=
    .cons trivial rfl (.cons trivial rfl (.nil _))
  obtain ⟨a, ha, hdest⟩ := (hall _ _ _ txStart_start hrun _ [] _ rfl hrun).dest onlySendto
    (linkLocal 1 1).1 (by decide)
  obtain rfl : (linkLocal 1 2).1 = a := Option.some.inj ha
  exact absurd (hdest.scope rfl) (by decide)

end PolarWG
