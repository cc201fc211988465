import PolarWG.ConfigValidator
import PolarWG.Lib.Decided
import PolarWG.Proofs.KeyText
import PolarWG.Proofs.Mesh
import PolarWG.Proofs.WGConf

/-!
# What the validator leaves to the parser

Both read a text line by line, as headers and entries of sections, and the parser's verdict is a
matter of its sections: entry by entry, but for the limits and for each peer's key. Where the
validator reads the same sections its checks are some of these, and the others are left.
-/

namespace PolarWG

open Specimen

/-! ## Sections -/

inductive ConfigItem where
  | header (title : Text)
  | entry (key value : Text)

inductive SectionKind where
  | interface
  | peer
  | other
deriving DecidableEq

/-- A section's entries, each a key and its value. -/
abbrev ConfigSection := SectionKind × List (Text × Text)

/-- The entries before the first header, and the sections. -/
def sectionsOf (kind : Text → SectionKind) :
    List ConfigItem → List (Text × Text) × List ConfigSection
  | [] => ([], [])
  | .entry key value :: items =>
    let (entries, sections) := sectionsOf kind items
    ((key, value) :: entries, sections)
  | .header title :: items =>
    let (entries, sections) := sectionsOf kind items
    ([], (kind title, entries) :: sections)

/-- What the parser takes a line for. -/
def parserItem (line : Text) : Option ConfigItem :=
  match wgsTrim line with
  | [] => none
  | t@(ch :: _) =>
    if ch = '#' ∨ ch = ';' then none
    else if ch = '[' then some (.header t)
    else (strchr '=' t).map fun (key, val) => .entry (wgsTrim key) (wgsTrim val)

def parserKind (title : Text) : SectionKind :=
  if startsWith title "[Peer]".toList then .peer
  else if startsWith title "[Interface]".toList then .interface
  else .other

def parserSections (text : Text) : List ConfigSection :=
  (sectionsOf parserKind ((strtok '\n' (cstr text)).filterMap parserItem)).2

/-- The values of a key. -/
def valuesOf (key : String) (entries : List (Text × Text)) : List Text :=
  (entries.filter (·.1 = key.toList)).map Prod.snd

/-- The entries of a list, less the blank ones. -/
def listed (ts : List Text) : List Text := (ts.map wgsTrim).filter (· ≠ [])

def listedIn (key : String) (entries : List (Text × Text)) : List Text :=
  (valuesOf key entries).flatMap fun v => listed (strtok ',' v)

def interfaceEntries (sections : List ConfigSection) : List (Text × Text) :=
  (sections.filter (·.1 = .interface)).flatMap Prod.snd

def peerSections (sections : List ConfigSection) : List (List (Text × Text)) :=
  (sections.filter (·.1 = .peer)).map Prod.snd

/-! ## What the parser asks for -/

section Readable

variable (p : Prims)

/-- What it asks of an entry. -/
def EntryReadable : SectionKind → Text × Text → Prop
  | .interface, (key, val) =>
    (key = "PrivateKey".toList → (decodeBase64 val).isSome)
    ∧ (key = "ListenPort".toList → 1 ≤ atoi val ∧ atoi val ≤ 65535)
    ∧ (key = "Address".toList → val.length < 256
      ∧ ∀ t ∈ listed (strtok ',' val), (parseIfaceAddr p t).isSome)
  | .peer, (key, val) =>
    (key = "PublicKey".toList → (decodeBase64 val).isSome)
    ∧ (key = "PresharedKey".toList → (decodeBase64 val).isSome)
    ∧ (key = "Endpoint".toList → (splitEndpoint val).isSome)
    ∧ (key = "AllowedIPs".toList → val.length < 512
      ∧ ∀ t ∈ listed (strtok ',' val), (parseCidr p t).isSome)
  | .other, _ => True

/-- The entries are good, and there is room for what they list. -/
structure Loadable (sections : List ConfigSection) : Prop where
  entries : ∀ s ∈ sections, ∀ e ∈ s.2, EntryReadable p s.1 e
  addresses : (listedIn "Address" (interfaceEntries sections)).length ≤ wgsMaxIfaceAddrs
  peers : (peerSections sections).length ≤ wgsMaxPeers
  allowed : ∀ es ∈ peerSections sections, (listedIn "AllowedIPs" es).length ≤ wgsMaxAllowedCidrs

/-- And what has to be there is: a private key, a peer, and of each peer a key that is not zero. -/
structure Readable (sections : List ConfigSection) : Prop extends Loadable p sections where
  privateKey : valuesOf "PrivateKey" (interfaceEntries sections) ≠ []
  peer : peerSections sections ≠ []
  publicKey : ∀ es ∈ peerSections sections, ∃ val key,
    (valuesOf "PublicKey" es).getLast? = some val ∧ decodeBase64 val = some key
      ∧ ¬ key.all (· = 0)

end Readable

/-! ## The parser by sections -/

section Parser

variable {p : Prims}

/-- What a header does. -/
def enterSection (c : ConfigState) : SectionKind → Option ConfigState
  | .interface => some { c with inInterface := true, inPeer := false }
  | .peer =>
    if wgsMaxPeers ≤ c.session.nPeers then none
    else some { c with
      session := { c.session with nPeers := c.session.nPeers + 1 }
      inInterface := false
      inPeer := true
      curPeer := some c.session.nPeers }
  | .other => some { c with inInterface := false, inPeer := false }

def configEntries (p : Prims) (c : ConfigState) (entries : List (Text × Text)) :
    Option ConfigState := entries.foldlM (fun c e => configKey p c e.1 e.2) c

def configSection (p : Prims) (c : ConfigState) (s : ConfigSection) : Option ConfigState :=
  (enterSection c s.1).bind fun c => configEntries p c s.2

def configItem (p : Prims) (c : ConfigState) : ConfigItem → Option ConfigState
  | .header title => enterSection c (parserKind title)
  | .entry key value => configKey p c key value

/-- No title begins both ways. -/
theorem startsWith_peer {t : Text} (h : startsWith t "[Peer]".toList = true) :
    startsWith t "[Interface]".toList = false := by
  refine decide_eq_false fun hin => ?_
  have hpeer : t.take 6 = "[Peer]".toList := of_decide_eq_true h
  have hin : t.take 11 = "[Interface]".toList := hin
  have htake : (t.take 11).take 6 = t.take 6 := by rw [List.take_take]; rfl
  rw [hin, hpeer] at htake
  exact absurd htake (by decide)

theorem configLine_eq (c : ConfigState) (line : Text) : configLine p c line =
    match parserItem line with
    | none => some c
    | some item => configItem p c item := by
  unfold configLine parserItem
  rcases wgsTrim line with _ | ⟨ch, t⟩
  · rfl
  · simp only []
    split
    · rfl
    · split
      · simp only [configItem, parserKind]
        split
        · next hpeer =>
          simp only [startsWith_peer hpeer, hpeer]
          rfl
        · next hpeer =>
          rw [Bool.not_eq_true] at hpeer
          split
          · next hin =>
            rw [hin, hpeer]
            rfl
          · next hin =>
            rw [Bool.not_eq_true] at hin
            rw [hin, hpeer]
            rfl
      · rcases strchr '=' (ch :: t) with _ | ⟨key, val⟩
        · rfl
        · rfl

theorem foldlM_configLine : ∀ (lines : List Text) (c : ConfigState),
    lines.foldlM (configLine p) c = (lines.filterMap parserItem).foldlM (configItem p) c
  | [], _ => rfl
  | line :: lines, c => by
    rw [List.foldlM_cons, configLine_eq]
    rcases h : parserItem line with _ | item
    · rw [List.filterMap_cons_none h]
      exact foldlM_configLine lines c
    · rw [List.filterMap_cons_some h, List.foldlM_cons]
      exact bind_congr fun c => foldlM_configLine lines c

theorem foldlM_configItem : ∀ (items : List ConfigItem) (c : ConfigState),
    items.foldlM (configItem p) c
      = (configEntries p c (sectionsOf parserKind items).1).bind fun c =>
        (sectionsOf parserKind items).2.foldlM (configSection p) c
  | [], _ => rfl
  | .entry key value :: items, c => by
    rw [List.foldlM_cons, sectionsOf]
    simp only [configEntries, List.foldlM_cons, Option.bind_eq_bind, Option.bind_assoc]
    exact congrArg _ (funext fun c => foldlM_configItem items c)
  | .header title :: items, c => by
    rw [List.foldlM_cons, sectionsOf]
    simp only [configEntries, List.foldlM_nil, List.foldlM_cons, configSection, configItem]
    simp only [Option.bind_eq_bind, Option.pure_def, Option.bind_some, Option.bind_assoc]
    exact congrArg _ (funext fun c => foldlM_configItem items c)

/-! ## Entries of a section -/

theorem valuesOf_append_list (key : String) (es es' : List (Text × Text)) :
    valuesOf key (es ++ es') = valuesOf key es ++ valuesOf key es' := by
  rw [valuesOf, List.filter_append, List.map_append]
  rfl

theorem listedIn_append_list (key : String) (es es' : List (Text × Text)) :
    listedIn key (es ++ es') = listedIn key es ++ listedIn key es' := by
  rw [listedIn, valuesOf_append_list, List.flatMap_append]
  rfl

theorem valuesOf_append (key : String) (es : List (Text × Text)) (e : Text × Text) :
    valuesOf key (es ++ [e]) = valuesOf key es ++ if e.1 = key.toList then [e.2] else [] := by
  rw [valuesOf_append_list]
  by_cases h : e.1 = key.toList
  · simp [valuesOf, h]
  · simp [valuesOf, h]

theorem listedIn_append (key : String) (es : List (Text × Text)) (e : Text × Text) :
    listedIn key (es ++ [e])
      = listedIn key es ++ if e.1 = key.toList then listed (strtok ',' e.2) else [] := by
  rw [listedIn, valuesOf_append, List.flatMap_append, ← listedIn]
  split
  · rw [List.flatMap_singleton]
  · rfl

theorem parseList_decided {α : Type*} (parse : Text → Option α) {max : ℕ} :
    ∀ (ts : List Text) {acc : List α}, acc.length ≤ max → Decided (parseList parse max ts acc)
      ((∀ t ∈ listed ts, (parse t).isSome) ∧ acc.length + (listed ts).length ≤ max)
      fun r => r.length = acc.length + (listed ts).length
  | [], acc, hacc => by
    refine .some ⟨?_, hacc⟩ rfl
    intro t ht
    cases ht
  | t :: ts, acc, hacc => by
    unfold parseList
    simp only []
    by_cases hblank : wgsTrim t = []
    · have hlisted : listed (t :: ts) = listed ts := by
        simp [listed, hblank]
      rw [if_pos hblank, hlisted]
      exact parseList_decided parse ts hacc
    · have hlisted : listed (t :: ts) = wgsTrim t :: listed ts := by
        simp [listed, hblank]
      rw [if_neg hblank, hlisted, List.length_cons]
      split
      · next hfull => exact .none fun h => by omega
      · next hroom =>
        have hrest : ∀ a, Decided (parseList parse max ts (acc ++ [a]))
            ((∀ t ∈ listed ts, (parse t).isSome) ∧ acc.length + ((listed ts).length + 1) ≤ max)
            fun r => r.length = acc.length + ((listed ts).length + 1) := fun a => by
          have hlen : (acc ++ [a]).length = acc.length + 1 := by simp
          refine (parseList_decided parse ts (by omega)).congr (and_congr_right fun _ => ?_)
            fun r hr => ?_
          · omega
          · omega
        refine ((Decided.of_isSome fun a _ => trivial).bind fun a _ _ => hrest a).congr ?_
          fun r hr => hr
        rw [List.forall_mem_cons, and_assoc]

/-- The key a peer ends up with. -/
def lastKey (es : List (Text × Text)) : Bytes :=
  ((valuesOf "PublicKey" es).getLast?.bind decodeBase64).getD (zeros 32)

/-- One key's clause is all that is asked of its entries. -/
theorem entryReadable_peer (key val : Text) : EntryReadable p .peer (key, val) ↔
    if key = "PublicKey".toList then (decodeBase64 val).isSome = true
    else if key = "Endpoint".toList then (splitEndpoint val).isSome = true
    else if key = "PresharedKey".toList then (decodeBase64 val).isSome = true
    else if key = "AllowedIPs".toList then
      val.length < 512 ∧ ∀ t ∈ listed (strtok ',' val), (parseCidr p t).isSome
    else True := by
  unfold EntryReadable
  split_ifs with h1 h2 h3 h4
  · subst h1
    exact ⟨fun h => h.1 rfl, fun h => ⟨fun _ => h, fun e => absurd e (by decide),
      fun e => absurd e (by decide), fun e => absurd e (by decide)⟩⟩
  · subst h2
    exact ⟨fun h => h.2.2.1 rfl, fun h => ⟨fun e => absurd e h1, fun e => absurd e (by decide),
      fun _ => h, fun e => absurd e (by decide)⟩⟩
  · subst h3
    exact ⟨fun h => h.2.1 rfl, fun h => ⟨fun e => absurd e h1, fun _ => h, fun e => absurd e h2,
      fun e => absurd e (by decide)⟩⟩
  · subst h4
    exact ⟨fun h => h.2.2.2 rfl, fun h => ⟨fun e => absurd e h1, fun e => absurd e h3,
      fun e => absurd e h2, fun _ => h⟩⟩
  · exact iff_of_true ⟨fun e => absurd e h1, fun e => absurd e h3, fun e => absurd e h2,
      fun e => absurd e h4⟩ trivial

theorem lastKey_append (es : List (Text × Text)) (key val : Text) :
    lastKey (es ++ [(key, val)])
      = if key = "PublicKey".toList then (decodeBase64 val).getD (zeros 32) else lastKey es := by
  rw [lastKey, valuesOf_append]
  split
  · rw [List.getLast?_concat, Option.bind_some]
  · rw [List.append_nil]
    rfl

/-- What the parser makes of a peer's entries. -/
structure PeerLoaded (es : List (Text × Text)) (peer : WgsPeer) : Prop where
  allowed : peer.allowed.length = (listedIn "AllowedIPs" es).length
  pubkey : peer.pubkey = lastKey es

theorem configPeerKey_decided (e : Text × Text) (es : List (Text × Text)) {peer : WgsPeer}
    (h : PeerLoaded es peer) (hmax : (listedIn "AllowedIPs" es).length ≤ wgsMaxAllowedCidrs) :
    Decided (configPeerKey p e.1 e.2 peer)
      (EntryReadable p .peer e ∧ (listedIn "AllowedIPs" (es ++ [e])).length ≤ wgsMaxAllowedCidrs)
      (PeerLoaded (es ++ [e])) := by
  obtain ⟨hlen, hkey⟩ := h
  obtain ⟨key, val⟩ := e
  rw [entryReadable_peer]
  unfold configPeerKey
  simp only []
  have hsame : key ≠ "AllowedIPs".toList →
      listedIn "AllowedIPs" (es ++ [(key, val)]) = listedIn "AllowedIPs" es := fun h => by
    rw [listedIn_append, if_neg h, List.append_nil]
  by_cases h1 : key = "PublicKey".toList
  · rw [if_pos h1, if_pos h1, hsame (by rw [h1]; decide)]
    refine ((Decided.of_isSome fun _ _ => trivial).map fun k hk _ => ?_).congr
      (and_iff_left hmax).symm fun _ h => h
    refine ⟨by rw [hsame (by rw [h1]; decide)]; exact hlen, ?_⟩
    rw [lastKey_append, if_pos h1, hk]
    rfl
  rw [if_neg h1, if_neg h1]
  have hkept : lastKey (es ++ [(key, val)]) = lastKey es := by
    rw [lastKey_append, if_neg h1]
  have hloaded : key ≠ "AllowedIPs".toList → ∀ {peer' : WgsPeer}, peer'.allowed = peer.allowed →
      peer'.pubkey = peer.pubkey → PeerLoaded (es ++ [(key, val)]) peer' := fun h _ ha hk =>
    ⟨by rw [ha, hlen, hsame h], by rw [hk, hkey, hkept]⟩
  by_cases h2 : key = "Endpoint".toList
  · have hne : key ≠ "AllowedIPs".toList := by rw [h2]; decide
    rw [if_pos h2, if_pos h2, hsame hne]
    refine ((Decided.of_isSome fun _ _ => trivial).map fun _ _ _ => ?_).congr
      (and_iff_left hmax).symm fun _ h => h
    exact hloaded hne rfl rfl
  rw [if_neg h2, if_neg h2]
  by_cases h3 : key = "PersistentKeepalive".toList
  · have hne : key ≠ "AllowedIPs".toList := by rw [h3]; decide
    rw [if_pos h3, if_neg (by rw [h3]; decide), if_neg hne, hsame hne]
    exact .some ⟨trivial, hmax⟩ (hloaded hne rfl rfl)
  rw [if_neg h3]
  by_cases h4 : key = "PresharedKey".toList
  · have hne : key ≠ "AllowedIPs".toList := by rw [h4]; decide
    rw [if_pos h4, if_pos h4, hsame hne]
    refine ((Decided.of_isSome fun _ _ => trivial).map fun _ _ _ => ?_).congr
      (and_iff_left hmax).symm fun _ h => h
    exact hloaded hne rfl rfl
  rw [if_neg h4, if_neg h4]
  by_cases h5 : key = "AllowedIPs".toList
  · rw [if_pos h5, if_pos h5, listedIn_append, if_pos h5, List.length_append, and_assoc]
    unfold parseListCidrs
    split
    · exact .none fun h => by omega
    · next hfits =>
      have hval : val.length < 512 := by omega
      refine ((parseList_decided (parseCidr p) (strtok ',' val) (hlen.trans_le hmax)).map
        fun _ _ hr => ⟨hr.trans (by rw [hlen, listedIn_append, if_pos h5, List.length_append]),
          hkey.trans hkept.symm⟩).congr ?_ fun _ h => h
      simp only [hlen, hval, true_and]
  · rw [if_neg h5, if_neg h5, hsame h5]
    exact .some ⟨trivial, hmax⟩ (hloaded h5 rfl rfl)

/-- The entries are good, and there is room for what they list. -/
theorem peerEntries_decided (es : List (Text × Text)) :
    Decided (es.foldlM (fun peer e => configPeerKey p e.1 e.2 peer) WgsPeer.blank)
      ((∀ e ∈ es, EntryReadable p .peer e)
        ∧ (listedIn "AllowedIPs" es).length ≤ wgsMaxAllowedCidrs)
      (PeerLoaded es) := by
  refine Decided.foldlM (fun es => (∀ e ∈ es, EntryReadable p .peer e)
    ∧ (listedIn "AllowedIPs" es).length ≤ wgsMaxAllowedCidrs) PeerLoaded (fun es e h => ?_)
    ?_ ⟨rfl, rfl⟩ (fun es e peer hc hp => ?_) es
  · refine ⟨fun d hd => h.1 d (List.mem_append_left _ hd), le_trans ?_ h.2⟩
    rw [listedIn_append, List.length_append]
    omega
  · exact ⟨List.forall_mem_nil _, Nat.zero_le _⟩
  · refine (configPeerKey_decided e es hp hc.2).congr (and_congr_left fun _ => ?_) fun _ h => h
    rw [List.forall_mem_append, List.forall_mem_singleton, and_iff_right hc.1]

theorem entryReadable_interface (key val : Text) : EntryReadable p .interface (key, val) ↔
    if key = "PrivateKey".toList then (decodeBase64 val).isSome = true
    else if key = "ListenPort".toList then 1 ≤ atoi val ∧ atoi val ≤ 65535
    else if key = "Address".toList then
      val.length < 256 ∧ ∀ t ∈ listed (strtok ',' val), (parseIfaceAddr p t).isSome
    else True := by
  unfold EntryReadable
  split_ifs with h1 h2 h3
  · subst h1
    exact ⟨fun h => h.1 rfl, fun h => ⟨fun _ => h, fun e => absurd e (by decide),
      fun e => absurd e (by decide)⟩⟩
  · subst h2
    exact ⟨fun h => h.2.1 rfl, fun h => ⟨fun e => absurd e h1, fun _ => h,
      fun e => absurd e (by decide)⟩⟩
  · subst h3
    exact ⟨fun h => h.2.2 rfl, fun h => ⟨fun e => absurd e h1, fun e => absurd e h2, fun _ => h⟩⟩
  · exact iff_of_true ⟨fun e => absurd e h1, fun e => absurd e h2, fun e => absurd e h3⟩ trivial

/-- What the parser makes of entries of the interface, met in the state `c`. -/
structure InterfaceLoaded (c : ConfigState) (es : List (Text × Text)) (c' : ConfigState) : Prop where
  ifAddrs : c'.session.ifAddrs.length = c.session.ifAddrs.length + (listedIn "Address" es).length
  gotPriv : c'.gotPriv = false ↔ c.gotPriv = false ∧ valuesOf "PrivateKey" es = []
  peers : c'.session.peers = c.session.peers
  nPeers : c'.session.nPeers = c.session.nPeers
  inInterface : c'.inInterface = true
  inPeer : c'.inPeer = false

theorem configKey_decided (e : Text × Text) (es : List (Text × Text)) {c c' : ConfigState}
    (h : InterfaceLoaded c es c')
    (hmax : c.session.ifAddrs.length + (listedIn "Address" es).length ≤ wgsMaxIfaceAddrs) :
    Decided (configKey p c' e.1 e.2) (EntryReadable p .interface e
        ∧ c.session.ifAddrs.length + (listedIn "Address" (es ++ [e])).length ≤ wgsMaxIfaceAddrs)
      (InterfaceLoaded c (es ++ [e])) := by
  obtain ⟨key, val⟩ := e
  obtain ⟨hlen, hgot, hpeers, hn, hin, hout⟩ := h
  rw [entryReadable_interface]
  unfold configKey
  simp only [hin, true_and]
  have hsame : key ≠ "Address".toList →
      listedIn "Address" (es ++ [(key, val)]) = listedIn "Address" es := fun h => by
    rw [listedIn_append, if_neg h, List.append_nil]
  by_cases h1 : key = "PrivateKey".toList
  · have hne : key ≠ "Address".toList := by rw [h1]; decide
    rw [if_pos h1, if_pos h1, hsame hne]
    refine ((Decided.of_isSome fun _ _ => trivial).map fun k _ _ => ?_).congr
      (and_iff_left hmax).symm fun _ h => h
    refine ⟨by rw [hsame hne]; exact hlen, ?_, hpeers, hn, rfl, hout⟩
    rw [valuesOf_append, if_pos h1]
    simp
  have hkept : valuesOf "PrivateKey" (es ++ [(key, val)]) = valuesOf "PrivateKey" es := by
    rw [valuesOf_append, if_neg h1, List.append_nil]
  rw [if_neg h1, if_neg h1]
  by_cases h2 : key = "ListenPort".toList
  · have hne : key ≠ "Address".toList := by rw [h2]; decide
    rw [if_pos h2, if_pos h2, hsame hne]
    split
    · exact .none fun h => by omega
    · refine .some ⟨by omega, hmax⟩ ⟨by rw [hsame hne]; exact hlen, by rw [hkept]; exact hgot,
        hpeers, hn, rfl, hout⟩
  rw [if_neg h2, if_neg h2]
  by_cases h3 : key = "Address".toList
  · rw [if_pos h3, if_pos h3, listedIn_append, if_pos h3, List.length_append, and_assoc]
    unfold parseListIface
    split
    · exact .none fun h => by omega
    · next hfits =>
      have hval : val.length < 256 := by omega
      refine ((parseList_decided (parseIfaceAddr p) (strtok ',' val) (hlen.trans_le hmax)).map
        fun _ _ hr => ⟨?_, by rw [hkept]; exact hgot, hpeers, hn, rfl, hout⟩).congr ?_ fun _ h => h
      · simp only [hlen, hval, true_and, Nat.add_assoc]
      · rw [listedIn_append, if_pos h3, List.length_append, ← Nat.add_assoc, ← hlen]
        exact hr
  · rw [if_neg h3, if_neg h3, hsame h3]
    simp only [hout]
    exact .some ⟨trivial, hmax⟩ ⟨by rw [hsame h3]; exact hlen, by rw [hkept]; exact hgot, hpeers, hn,
      hin, hout⟩

theorem interfaceEntries_decided {c : ConfigState} (hin : c.inInterface = true)
    (hout : c.inPeer = false) (hmax : c.session.ifAddrs.length ≤ wgsMaxIfaceAddrs)
    (es : List (Text × Text)) : Decided (configEntries p c es)
      ((∀ e ∈ es, EntryReadable p .interface e)
        ∧ c.session.ifAddrs.length + (listedIn "Address" es).length ≤ wgsMaxIfaceAddrs)
      (InterfaceLoaded c es) := by
  refine Decided.foldlM (fun es => (∀ e ∈ es, EntryReadable p .interface e)
    ∧ c.session.ifAddrs.length + (listedIn "Address" es).length ≤ wgsMaxIfaceAddrs)
    (InterfaceLoaded c) (fun es e h => ?_) ?_ ?_ (fun es e c' hc hp => ?_) es
  · refine ⟨fun d hd => h.1 d (List.mem_append_left _ hd), le_trans ?_ h.2⟩
    rw [listedIn_append, List.length_append]
    omega
  · exact ⟨List.forall_mem_nil _, hmax⟩
  · exact ⟨rfl, by simp [valuesOf], rfl, rfl, hin, hout⟩
  · refine (configKey_decided e es hp hc.2).congr (and_congr_left fun _ => ?_) fun _ h => h
    rw [List.forall_mem_append, List.forall_mem_singleton, and_iff_right hc.1]

/-- The entries of a peer are about that peer alone. -/
theorem configEntries_peer {i : ℕ} : ∀ (es : List (Text × Text)) {c : ConfigState},
    c.inInterface = false → c.inPeer = true → c.curPeer = some i → configEntries p c es
      = (es.foldlM (fun peer e => configPeerKey p e.1 e.2 peer) (c.session.peers i)).map fun peer =>
        { c with session := c.session.modPeer i fun _ => peer }
  | [], c, _, _, _ => by
    simp [configEntries, WgSession.modPeer]
  | (key, val) :: es, c, hin, hout, hcur => by
    have hkey : configKey p c key val = (configPeerKey p key val (c.session.peers i)).map fun peer =>
        { c with session := c.session.modPeer i fun _ => peer } := by
      unfold configKey
      simp only [hin, hout, hcur, Bool.false_eq_true, false_and, if_false]
    unfold configEntries
    rw [List.foldlM_cons, List.foldlM_cons, hkey]
    rcases configPeerKey p key val (c.session.peers i) with _ | peer
    · rfl
    · simp only [Option.map_some, Option.bind_eq_bind, Option.bind_some]
      have hrest := configEntries_peer es
        (c := { c with session := c.session.modPeer i fun _ => peer }) hin hout hcur
      unfold configEntries at hrest
      rw [hrest]
      simp [WgSession.modPeer]

/-- Elsewhere entries are passed over. -/
theorem configEntries_other : ∀ (es : List (Text × Text)) {c : ConfigState},
    c.inInterface = false → c.inPeer = false → configEntries p c es = some c
  | [], _, _, _ => rfl
  | (key, val) :: es, c, hin, hout => by
    have hkey : configKey p c key val = some c := by
      unfold configKey
      simp only [hin, hout, Bool.false_eq_true, false_and, if_false]
    unfold configEntries
    rw [List.foldlM_cons, hkey]
    exact configEntries_other es hin hout

/-! ## Section by section -/

theorem peerSections_append (ss : List ConfigSection) (kind : SectionKind)
    (es : List (Text × Text)) : peerSections (ss ++ [(kind, es)])
      = peerSections ss ++ if kind = .peer then [es] else [] := by
  rw [peerSections, List.filter_append, List.map_append, ← peerSections, List.filter_singleton]
  cases kind <;> rfl

theorem interfaceEntries_append (ss : List ConfigSection) (kind : SectionKind)
    (es : List (Text × Text)) : interfaceEntries (ss ++ [(kind, es)])
      = interfaceEntries ss ++ if kind = .interface then es else [] := by
  rw [interfaceEntries, List.filter_append, List.flatMap_append, ← interfaceEntries,
    List.filter_singleton]
  cases kind <;> simp

theorem loadable_append {ss : List ConfigSection} (h : Loadable p ss) (kind : SectionKind)
    (es : List (Text × Text)) : Loadable p (ss ++ [(kind, es)]) ↔
      (∀ e ∈ es, EntryReadable p kind e)
      ∧ (kind = .interface → (listedIn "Address" (interfaceEntries ss)).length
          + (listedIn "Address" es).length ≤ wgsMaxIfaceAddrs)
      ∧ (kind = .peer → (peerSections ss).length < wgsMaxPeers
        ∧ (listedIn "AllowedIPs" es).length ≤ wgsMaxAllowedCidrs) := by
  constructor
  · rintro ⟨hentries, haddrs, hpeers, hallowed⟩
    rw [interfaceEntries_append] at haddrs
    rw [peerSections_append] at hpeers hallowed
    refine ⟨hentries (kind, es) (by simp), ?_, ?_⟩
    · rintro rfl
      rwa [if_pos rfl, listedIn_append_list, List.length_append] at haddrs
    · rintro rfl
      rw [if_pos rfl, List.length_append, List.length_singleton] at hpeers
      exact ⟨hpeers, hallowed es (by simp)⟩
  · rintro ⟨hentries, haddrs, hpeers⟩
    refine ⟨?_, ?_, ?_, ?_⟩
    · intro s hs
      rcases List.mem_append.mp hs with hs | hs
      · exact h.entries s hs
      · rw [List.mem_singleton.mp hs]
        exact hentries
    · rw [interfaceEntries_append]
      split
      · next hk =>
        rw [listedIn_append_list, List.length_append]
        exact haddrs hk
      · rw [List.append_nil]
        exact h.addresses
    · rw [peerSections_append]
      split
      · next hk =>
        rw [List.length_append, List.length_singleton]
        exact (hpeers hk).1
      · rw [List.append_nil]
        exact h.peers
    · rw [peerSections_append]
      intro es' hes'
      rcases List.mem_append.mp hes' with hes' | hes'
      · exact h.allowed es' hes'
      · split at hes'
        · next hk =>
          rw [List.mem_singleton.mp hes']
          exact (hpeers hk).2
        · cases hes'

/-- The parser's state after sections. -/
structure SectionsLoaded (ss : List ConfigSection) (c : ConfigState) : Prop where
  ifAddrs : c.session.ifAddrs.length = (listedIn "Address" (interfaceEntries ss)).length
  gotPriv : c.gotPriv = false ↔ valuesOf "PrivateKey" (interfaceEntries ss) = []
  nPeers : c.session.nPeers = (peerSections ss).length
  pubkey : ∀ i es, (peerSections ss)[i]? = some es → (c.session.peers i).pubkey = lastKey es
  fresh : ∀ i, c.session.nPeers ≤ i → c.session.peers i = .blank

theorem interface_decided {ss : List ConfigSection} {c : ConfigState} (hss : Loadable p ss)
    (h : SectionsLoaded ss c) (es : List (Text × Text)) :
    Decided (configSection p c (.interface, es)) (Loadable p (ss ++ [(.interface, es)]))
      (SectionsLoaded (ss ++ [(.interface, es)])) := by
  have hdecided := interfaceEntries_decided (p := p)
    (c := { c with inInterface := true, inPeer := false }) rfl rfl
    (h.ifAddrs.trans_le hss.addresses) es
  refine hdecided.congr ?_ ?_
  · rw [loadable_append hss]
    simp [h.ifAddrs]
  · rintro c' ⟨haddrs, hgot, hpeers, hn, -, -⟩
    refine ⟨?_, ?_, ?_, ?_, ?_⟩
    · rw [haddrs, interfaceEntries_append, if_pos rfl, listedIn_append_list, List.length_append,
        ← h.ifAddrs]
    · rw [hgot, interfaceEntries_append, if_pos rfl, valuesOf_append_list, List.append_eq_nil_iff,
        ← h.gotPriv]
    · rw [hn, peerSections_append, if_neg (by decide), List.append_nil]
      exact h.nPeers
    · rw [hpeers, peerSections_append, if_neg (by decide), List.append_nil]
      exact h.pubkey
    · rw [hpeers, hn]
      exact h.fresh

theorem peer_decided {ss : List ConfigSection} {c : ConfigState} (hss : Loadable p ss)
    (h : SectionsLoaded ss c) (es : List (Text × Text)) :
    Decided (configSection p c (.peer, es)) (Loadable p (ss ++ [(.peer, es)]))
      (SectionsLoaded (ss ++ [(.peer, es)])) := by
  unfold configSection enterSection
  simp only []
  split
  · next hfull =>
    refine .none fun hload => ?_
    have := (((loadable_append hss _ _).mp hload).2.2 rfl).1
    rw [h.nPeers] at hfull
    omega
  · next hroom =>
    rw [Option.bind_some, configEntries_peer es rfl rfl rfl]
    simp only []
    rw [h.fresh _ le_rfl]
    refine ((peerEntries_decided es).map fun peer _ hpeer => ?_).congr ?_ fun _ h => h
    rotate_left
    · rw [loadable_append hss]
      rw [h.nPeers] at hroom
      simp only [reduceCtorEq, false_implies, true_and, forall_const]
      exact and_congr_right fun _ => (and_iff_right (by omega)).symm
    · refine ⟨?_, ?_, ?_, ?_, ?_⟩
      · rw [interfaceEntries_append, if_neg (by decide), List.append_nil]
        exact h.ifAddrs
      · rw [interfaceEntries_append, if_neg (by decide), List.append_nil]
        exact h.gotPriv
      · rw [peerSections_append, if_pos rfl, List.length_append, List.length_singleton, ← h.nPeers]
        rfl
      · intro i es' hes'
        rw [peerSections_append, if_pos rfl] at hes'
        simp only [WgSession.modPeer, Function.update_apply]
        split
        · next hi =>
          rw [hi, h.nPeers, List.getElem?_concat_length] at hes'
          rw [hpeer.pubkey, Option.some.inj hes']
        · next hi =>
          refine h.pubkey i es' ?_
          have hlt : i < (peerSections ss).length := by
            have := (List.getElem?_eq_some_iff.mp hes').1
            rw [List.length_append, List.length_singleton] at this
            rw [h.nPeers] at hi
            omega
          rwa [List.getElem?_append_left hlt] at hes'
      · intro i hi
        have hi : c.session.nPeers + 1 ≤ i := hi
        simp only [WgSession.modPeer, Function.update_apply]
        rw [if_neg (by omega)]
        exact h.fresh i (by omega)

theorem other_decided {ss : List ConfigSection} {c : ConfigState} (hss : Loadable p ss)
    (h : SectionsLoaded ss c) (es : List (Text × Text)) :
    Decided (configSection p c (.other, es)) (Loadable p (ss ++ [(.other, es)]))
      (SectionsLoaded (ss ++ [(.other, es)])) := by
  rw [configSection, enterSection, Option.bind_some, configEntries_other es rfl rfl]
  refine .some ((loadable_append hss _ _).mpr ⟨fun _ _ => trivial, ?_, ?_⟩) ⟨?_, ?_, ?_, ?_, h.fresh⟩
  · exact fun e => by cases e
  · exact fun e => by cases e
  · rw [interfaceEntries_append, if_neg (by decide), List.append_nil]
    exact h.ifAddrs
  · rw [interfaceEntries_append, if_neg (by decide), List.append_nil]
    exact h.gotPriv
  · rw [peerSections_append, if_neg (by decide), List.append_nil]
    exact h.nPeers
  · rw [peerSections_append, if_neg (by decide), List.append_nil]
    exact h.pubkey

theorem configSection_decided {ss : List ConfigSection} {c : ConfigState} (hss : Loadable p ss)
    (h : SectionsLoaded ss c) : ∀ s : ConfigSection,
      Decided (configSection p c s) (Loadable p (ss ++ [s])) (SectionsLoaded (ss ++ [s]))
  | (.interface, es) => interface_decided hss h es
  | (.peer, es) => peer_decided hss h es
  | (.other, es) => other_decided hss h es

theorem loadable_mono (ss : List ConfigSection) (s : ConfigSection)
    (h : Loadable p (ss ++ [s])) : Loadable p ss := by
  obtain ⟨kind, es⟩ := s
  obtain ⟨hentries, haddrs, hpeers, hallowed⟩ := h
  rw [interfaceEntries_append, listedIn_append_list, List.length_append] at haddrs
  rw [peerSections_append] at hpeers hallowed
  rw [List.length_append] at hpeers
  exact ⟨fun s hs => hentries s (List.mem_append_left _ hs), by omega, by omega,
    fun es hes => hallowed es (List.mem_append_left _ hes)⟩

/-- Before the first header. -/
def ConfigState.start : ConfigState := ⟨.blank, false, false, none, false⟩

theorem sections_decided (ss : List ConfigSection) :
    Decided (ss.foldlM (configSection p) .start) (Loadable p ss) (SectionsLoaded ss) := by
  refine Decided.foldlM (Loadable p) SectionsLoaded loadable_mono ?_ ?_
    (fun ss s c hss h => configSection_decided hss h s) ss
  · exact ⟨List.forall_mem_nil _, Nat.zero_le _, Nat.zero_le _, List.forall_mem_nil _⟩
  · exact ⟨rfl, by simp [ConfigState.start, valuesOf, interfaceEntries], rfl,
      fun i es h => by simp [peerSections] at h, fun _ _ => rfl⟩

theorem lastKey_ne_zero (es : List (Text × Text)) : ¬ (lastKey es).all (· = 0) ↔
    ∃ val key, (valuesOf "PublicKey" es).getLast? = some val ∧ decodeBase64 val = some key
      ∧ ¬ key.all (· = 0) := by
  have hzero : (zeros 32).all (· = 0) := by decide
  unfold lastKey
  rcases (valuesOf "PublicKey" es).getLast? with _ | val
  · simp [hzero]
  · rcases hkey : decodeBase64 val with _ | key
    · simp [hzero, hkey]
    · simp [hkey]

theorem zeroKey_iff {ss : List ConfigSection} {c : ConfigState} (h : SectionsLoaded ss c) :
    (∃ i < c.session.nPeers, (c.session.peers i).pubkey.all (· = 0))
      ↔ ∃ es ∈ peerSections ss, (lastKey es).all (· = 0) := by
  constructor
  · rintro ⟨i, hi, hzero⟩
    rw [h.nPeers] at hi
    have hes := List.getElem?_eq_getElem hi
    rw [h.pubkey i _ hes] at hzero
    exact ⟨_, List.getElem_mem hi, hzero⟩
  · rintro ⟨es, hes, hzero⟩
    obtain ⟨i, hes⟩ := List.getElem?_of_mem hes
    refine ⟨i, ?_, ?_⟩
    · rw [h.nPeers]
      exact (List.getElem?_eq_some_iff.mp hes).1
    · rw [h.pubkey i es hes]
      exact hzero

/-- The parser accepts exactly the texts that are readable. -/
theorem parseConfigText_isSome (text : Text) :
    (parseConfigText p text).isSome ↔ Readable p (parserSections text) := by
  have hlines : (strtok '\n' (cstr text)).foldlM (configLine p) .start
      = (parserSections text).foldlM (configSection p) .start := by
    rw [foldlM_configLine, foldlM_configItem, configEntries_other _ rfl rfl, Option.bind_some]
    rfl
  have hfinal : ∀ c, Loadable p (parserSections text) → SectionsLoaded (parserSections text) c →
      Decided (if ¬ c.gotPriv ∨ c.session.nPeers = 0 then none
        else if ∃ i < c.session.nPeers, (c.session.peers i).pubkey.all (· = 0) then none
        else some c.session)
      (valuesOf "PrivateKey" (interfaceEntries (parserSections text)) ≠ []
        ∧ peerSections (parserSections text) ≠ []
        ∧ ∀ es ∈ peerSections (parserSections text), ¬ (lastKey es).all (· = 0))
      (fun _ => True) := fun c _ h => by
    split
    · next hmissing =>
      refine .none fun hc => ?_
      rcases hmissing with hgot | hn
      · exact hc.1 (h.gotPriv.mp (Bool.not_eq_true _ ▸ hgot))
      · rw [h.nPeers] at hn
        exact hc.2.1 (List.length_eq_zero_iff.mp hn)
    · next hthere =>
      rw [not_or, not_not] at hthere
      split
      · next hzero =>
        obtain ⟨es, hes, hzero⟩ := (zeroKey_iff h).mp hzero
        exact .none fun hc => hc.2.2 es hes hzero
      · next hzero =>
        refine .some ⟨fun hnil => ?_, fun hnil => ?_, fun es hes hz => ?_⟩ trivial
        · rw [h.gotPriv.mpr hnil] at hthere
          exact Bool.false_ne_true hthere.1
        · exact hthere.2 (by rw [h.nPeers, hnil]; rfl)
        · exact hzero ((zeroKey_iff h).mpr ⟨es, hes, hz⟩)
  have hparse : Decided (parseConfigText p text) _ _ :=
    (hlines ▸ sections_decided (parserSections text)).bind hfinal
  rw [hparse.isSome_iff]
  simp only [lastKey_ne_zero]
  exact ⟨fun ⟨hload, hpriv, hpeer, hkey⟩ => ⟨hload, hpriv, hpeer, hkey⟩,
    fun h => ⟨h.toLoadable, h.privateKey, h.peer, h.publicKey⟩⟩

end Parser

/-! ## The validator by sections -/

section Validator

open WGConfigValidator

variable (u : Unicode)

/-- What the validator takes a line for. -/
def validatorItem (line : Text) : Option ConfigItem :=
  if line = [] ∨ u.beginsWith '#' line ∨ u.beginsWith ';' line then none
  else if u.beginsWith '[' line then some (.header line)
  else match u.splitOnce '=' line with
    | [key, value] => some (.entry (trimmed key) (trimmed value))
    | _ => none

def sectionKind (name : Text) : SectionKind :=
  if u.same name "interface".toList then .interface
  else if u.same name "peer".toList then .peer
  else .other

def validatorItems (config : Text) : List ConfigItem :=
  ((newlineComponents (trimmingWhitespacesAndNewlines config)).map trimmed).filterMap
    (validatorItem u)

def validatorSections (config : Text) : List ConfigSection :=
  (sectionsOf (fun title => sectionKind u (sectionName u title)) (validatorItems u config)).2

/-- What the validator makes sure of. -/
def EntryChecked : SectionKind → Text × Text → Prop
  | .interface, (key, val) => u.same key "PrivateKey".toList → isValidBase64Key u val
  | .peer, (key, val) =>
    (u.same key "PublicKey".toList → isValidBase64Key u val)
    ∧ (u.same key "Endpoint".toList → u.contains ':' val)
  | .other, _ => True

def validateItem (v : Validation) : ConfigItem → Validation
  | .header title =>
    let name := sectionName u title
    { v with
      currentSection := name
      hasInterface := v.hasInterface ∨ u.same name "interface".toList
      hasPeer := v.hasPeer ∨ u.same name "peer".toList }
  | .entry key value =>
    let v := if u.same v.currentSection "interface".toList then
        WGConfigValidator.interfaceKey u v key value
      else v
    if u.same v.currentSection "peer".toList then WGConfigValidator.peerKey u v key value else v

def isAscii (t : Text) : Bool := t.all (·.toNat < 128)

theorem isAscii_char {t : Text} (h : isAscii t) {c : Char} (hc : c ∈ t) : isAscii [c] := by
  have := List.all_eq_true.mp h c hc
  simpa [isAscii] using this

/-- The behaviour of Swift's strings on ASCII. -/
structure Unicode.Standard : Prop where
  characters : ∀ t : Text, isAscii t → '\r' ∉ t → u.characters t = t.map fun c => [c]
  canonical : ∀ t : Text, isAscii t → u.canonical t = t
  alphanumerics : ∀ c : Char, c.toNat < 128 → u.alphanumerics c = c.isAlphanum

variable {u}

theorem validateLine_eq (v : Validation) (line : Text) : validateLine u v line =
    match validatorItem u line with
    | none => v
    | some item => validateItem u v item := by
  unfold validateLine validatorItem
  split
  · rfl
  · split
    · rfl
    · rcases u.splitOnce '=' line with _ | ⟨key, _ | ⟨value, _ | ⟨other, others⟩⟩⟩
      all_goals rfl

theorem foldl_validateLine : ∀ (lines : List Text) (v : Validation),
    lines.foldl (validateLine u) v = (lines.filterMap (validatorItem u)).foldl (validateItem u) v
  | [], _ => rfl
  | line :: lines, v => by
    rw [List.foldl_cons, validateLine_eq]
    rcases h : validatorItem u line with _ | item
    · rw [List.filterMap_cons_none h]
      exact foldl_validateLine lines v
    · rw [List.filterMap_cons_some h, List.foldl_cons]
      exact foldl_validateLine lines _

/-! ## What a text without errors has been checked for -/

theorem report_errors {v : Validation} {errors : List String} (h : (v.report errors).errors = []) :
    v.errors = [] ∧ errors = [] := by
  obtain ⟨hv, he⟩ := List.append_eq_nil_iff.mp h
  exact ⟨hv, List.map_eq_nil_iff.mp he⟩

theorem interfaceKey_errors {v : Validation} {key val : Text}
    (h : (WGConfigValidator.interfaceKey u v key val).errors = []) :
    v.errors = [] ∧ EntryChecked u .interface (key, val) := by
  unfold WGConfigValidator.interfaceKey at h
  unfold EntryChecked
  split at h
  · obtain ⟨hv, he⟩ := report_errors h
    refine ⟨hv, fun _ => ?_⟩
    by_contra hkey
    rw [if_neg hkey] at he
    cases he
  · next hne =>
    refine ⟨?_, fun hk => absurd hk hne⟩
    split at h
    · exact (report_errors h).1
    · exact h

/-! ## The variables that an entry leaves -/

theorem interfaceKey_kept (v : Validation) (key val : Text) :
    (WGConfigValidator.interfaceKey u v key val).currentSection = v.currentSection
      ∧ (WGConfigValidator.interfaceKey u v key val).hasPeer = v.hasPeer
      ∧ ((WGConfigValidator.interfaceKey u v key val).hasPrivateKey →
        v.hasPrivateKey ∨ u.same key "PrivateKey".toList) := by
  unfold WGConfigValidator.interfaceKey
  split
  · next hkey => exact ⟨rfl, rfl, fun _ => .inr hkey⟩
  · split <;> exact ⟨rfl, rfl, .inl⟩

theorem peerKey_kept (v : Validation) (key val : Text) :
    (WGConfigValidator.peerKey u v key val).currentSection = v.currentSection
      ∧ (WGConfigValidator.peerKey u v key val).hasPeer = v.hasPeer
      ∧ (WGConfigValidator.peerKey u v key val).hasPrivateKey = v.hasPrivateKey := by
  unfold WGConfigValidator.peerKey
  split
  · exact ⟨rfl, rfl, rfl⟩
  · split
    · exact ⟨rfl, rfl, rfl⟩
    · split <;> exact ⟨rfl, rfl, rfl⟩

theorem validateEntry_kept (v : Validation) (key val : Text) :
    (validateItem u v (.entry key val)).currentSection = v.currentSection
      ∧ (validateItem u v (.entry key val)).hasPeer = v.hasPeer
      ∧ ((validateItem u v (.entry key val)).hasPrivateKey → v.hasPrivateKey
        ∨ (sectionKind u v.currentSection = .interface ∧ u.same key "PrivateKey".toList)) := by
  obtain ⟨hcur, hpeer, hpriv⟩ := interfaceKey_kept (u := u) v key val
  unfold validateItem sectionKind
  simp only []
  by_cases hin : u.same v.currentSection "interface".toList
  · rw [if_pos hin, if_pos hin]
    split
    · obtain ⟨hcur', hpeer', hpriv'⟩ :=
        peerKey_kept (u := u) (WGConfigValidator.interfaceKey u v key val) key val
      exact ⟨hcur'.trans hcur, hpeer'.trans hpeer,
        fun h => (hpriv (hpriv' ▸ h)).imp_right fun h => ⟨rfl, h⟩⟩
    · exact ⟨hcur, hpeer, fun h => (hpriv h).imp_right fun h => ⟨rfl, h⟩⟩
  · rw [if_neg hin]
    split
    · obtain ⟨hcur', hpeer', hpriv'⟩ := peerKey_kept (u := u) v key val
      exact ⟨hcur', hpeer', fun h => .inl (hpriv' ▸ h)⟩
    · exact ⟨rfl, rfl, .inl⟩

theorem same_of_sectionKind {name : Text} (h : sectionKind u name = .interface) :
    u.same name "interface".toList := by
  unfold sectionKind at h
  split_ifs at h with hin
  exact hin

theorem foldl_hasPrivateKey : ∀ (items : List ConfigItem) {v : Validation},
    (items.foldl (validateItem u) v).hasPrivateKey → v.hasPrivateKey
      ∨ (sectionKind u v.currentSection = .interface
        ∧ ∃ e ∈ (sectionsOf (fun title => sectionKind u (sectionName u title)) items).1,
          u.same e.1 "PrivateKey".toList)
      ∨ ∃ s ∈ (sectionsOf (fun title => sectionKind u (sectionName u title)) items).2,
          s.1 = .interface ∧ ∃ e ∈ s.2, u.same e.1 "PrivateKey".toList
  | [], _, h => .inl h
  | .entry key val :: items, v, h => by
    obtain ⟨hcur, -, hpriv⟩ := validateEntry_kept (u := u) v key val
    rcases foldl_hasPrivateKey items h with h | ⟨hkind, e, he, hsame⟩ | h
    · rcases hpriv h with h | ⟨hkind, hsame⟩
      · exact .inl h
      · exact .inr (.inl ⟨hkind, _, List.mem_cons_self, hsame⟩)
    · rw [hcur] at hkind
      exact .inr (.inl ⟨hkind, e, List.mem_cons_of_mem _ he, hsame⟩)
    · exact .inr (.inr h)
  | .header title :: items, v, h => by
    rcases foldl_hasPrivateKey items h with h | ⟨hkind, he⟩ | ⟨s, hs, he⟩
    · exact .inl h
    · exact .inr (.inr ⟨_, List.mem_cons_self, hkind, he⟩)
    · exact .inr (.inr ⟨s, List.mem_cons_of_mem _ hs, he⟩)

variable (hu : u.Standard)
include hu

theorem same_ascii {t v : Text} (ht : isAscii t) (hv : isAscii v) : u.same t v ↔ t = v := by
  rw [Unicode.same, hu.canonical t ht, hu.canonical v hv, decide_eq_true_eq]

/-- A text is the same as one word of the format at most. -/
theorem same_unique {t v w : Text} (hv : isAscii v) (hw : isAscii w) (h : u.same t v)
    (h' : u.same t w) : v = w := by
  have hv' := of_decide_eq_true h
  have hw' := of_decide_eq_true h'
  rw [hu.canonical v hv] at hv'
  rw [hu.canonical w hw] at hw'
  exact hv'.symm.trans hw'

theorem peerKey_errors {v : Validation} {key val : Text}
    (h : (WGConfigValidator.peerKey u v key val).errors = []) :
    v.errors = [] ∧ EntryChecked u .peer (key, val) := by
  unfold WGConfigValidator.peerKey at h
  unfold EntryChecked
  split at h
  · next hpub =>
    obtain ⟨hv, he⟩ := report_errors h
    refine ⟨hv, fun _ => ?_, fun hend => ?_⟩
    · by_contra hkey
      rw [if_neg hkey] at he
      cases he
    · exact absurd (same_unique hu (by decide) (by decide) hpub hend) (by decide)
  · next hpub =>
    split at h
    · obtain ⟨hv, he⟩ := report_errors h
      refine ⟨hv, fun hk => absurd hk hpub, fun _ => ?_⟩
      by_contra hcolon
      split at he
      · cases he
      · cases he
    · next hend =>
      refine ⟨?_, fun hk => absurd hk hpub, fun hk => absurd hk hend⟩
      split at h
      · exact h
      · exact h

theorem interface_not_peer {name : Text} (h : u.same name "interface".toList) :
    ¬ u.same name "peer".toList := fun hp =>
  absurd (same_unique hu (by decide) (by decide) h hp) (by decide)

theorem validateEntry_errors {v : Validation} {key val : Text}
    (h : (validateItem u v (.entry key val)).errors = []) :
    v.errors = [] ∧ EntryChecked u (sectionKind u v.currentSection) (key, val) := by
  unfold validateItem at h
  unfold sectionKind
  simp only [] at h
  by_cases hin : u.same v.currentSection "interface".toList
  · have hcur := (interfaceKey_kept (u := u) v key val).1
    rw [if_pos hin, hcur, if_neg (interface_not_peer hu hin)] at h
    rw [if_pos hin]
    exact interfaceKey_errors h
  · rw [if_neg hin] at h ⊢
    split
    · next hp =>
      rw [if_pos hp] at h
      exact peerKey_errors hu h
    · next hp =>
      rw [if_neg hp] at h
      exact ⟨h, trivial⟩

/-- Errors are never taken back, so without any each entry has been checked. -/
theorem foldl_errors : ∀ (items : List ConfigItem) {v : Validation},
    (items.foldl (validateItem u) v).errors = [] → v.errors = []
      ∧ (∀ e ∈ (sectionsOf (fun title => sectionKind u (sectionName u title)) items).1,
          EntryChecked u (sectionKind u v.currentSection) e)
      ∧ ∀ s ∈ (sectionsOf (fun title => sectionKind u (sectionName u title)) items).2,
          ∀ e ∈ s.2, EntryChecked u s.1 e
  | [], v, h => ⟨h, List.forall_mem_nil _, List.forall_mem_nil _⟩
  | .entry key val :: items, v, h => by
    have hcur := (validateEntry_kept (u := u) v key val).1
    obtain ⟨hv, hlead, hsections⟩ := foldl_errors items h
    obtain ⟨hv, hentry⟩ := validateEntry_errors hu hv
    rw [hcur] at hlead
    exact ⟨hv, List.forall_mem_cons.mpr ⟨hentry, hlead⟩, hsections⟩
  | .header title :: items, v, h => by
    obtain ⟨hv, hlead, hsections⟩ := foldl_errors items h
    exact ⟨hv, List.forall_mem_nil _, List.forall_mem_cons.mpr ⟨hlead, hsections⟩⟩

theorem foldl_hasPeer : ∀ (items : List ConfigItem) {v : Validation},
    (items.foldl (validateItem u) v).hasPeer → v.hasPeer
      ∨ ∃ s ∈ (sectionsOf (fun title => sectionKind u (sectionName u title)) items).2, s.1 = .peer
  | [], _, h => .inl h
  | .entry key val :: items, v, h => by
    have hpeer := (validateEntry_kept (u := u) v key val).2.1
    rcases foldl_hasPeer items h with h | h
    · exact .inl (hpeer ▸ h)
    · exact .inr h
  | .header title :: items, v, h => by
    rcases foldl_hasPeer items h with h | ⟨s, hs, hkind⟩
    · rcases of_decide_eq_true h with h | h
      · exact .inl h
      · refine .inr ⟨_, List.mem_cons_self, ?_⟩
        simp only [sectionKind]
        rw [if_neg fun hin => interface_not_peer hu hin h, if_pos h]
    · exact .inr ⟨s, List.mem_cons_of_mem _ hs, hkind⟩

/-- What no error says of a text. -/
theorem valid_checked {config : Text} (h : (validate u config).isValid) :
    (∀ s ∈ validatorSections u config, ∀ e ∈ s.2, EntryChecked u s.1 e)
      ∧ (∃ s ∈ validatorSections u config, s.1 = .interface
        ∧ ∃ e ∈ s.2, u.same e.1 "PrivateKey".toList)
      ∧ ∃ s ∈ validatorSections u config, s.1 = .peer := by
  unfold validate at h
  simp only [] at h
  split at h
  · cases h
  · have herrors := of_decide_eq_true h
    rw [foldl_validateLine] at herrors
    obtain ⟨hfold, hrequired⟩ := report_errors herrors
    simp only [List.append_eq_nil_iff, ite_eq_right_iff, List.cons_ne_nil, imp_false, not_and,
      not_not, and_assoc] at hrequired
    obtain ⟨hinterface, hpeer, hpriv, -⟩ := hrequired
    refine ⟨(foldl_errors hu _ hfold).2.2, ?_, ?_⟩
    · rcases foldl_hasPrivateKey _ (hpriv hinterface) with h | ⟨hkind, -⟩ | h
      · cases h
      · have hnone : ¬ u.same [] "interface".toList := by
          rw [same_ascii hu (by decide) (by decide)]
          decide
        exact absurd (same_of_sectionKind hkind) hnone
      · exact h
    · exact (foldl_hasPeer hu _ hpeer).resolve_left fun h => by cases h

/-! ## What is left -/

omit hu in
theorem take_groups (n : ℕ) (c₀ c₁ c₂ c₃ : Char) (t : Text) :
    (c₀ :: c₁ :: c₂ :: c₃ :: t).take (4 * (n + 1) + 3)
      = c₀ :: c₁ :: c₂ :: c₃ :: t.take (4 * n + 3) := by
  rw [show 4 * (n + 1) + 3 = 4 * n + 3 + 1 + 1 + 1 + 1 by omega]
  simp only [List.take_succ_cons]

omit hu in
/-- The groups of a key, the last of which ends with the padding. -/
theorem b64Groups_of_values : ∀ (n : ℕ) (t : Text), t.length = 4 * n + 4 →
    (∀ c ∈ t.take (4 * n + 3), (b64Value c).isSome) → t[4 * n + 3]? = some '=' →
    ∃ key, b64Groups t = some key ∧ key.length = 3 * n + 2
  | 0, [c₀, c₁, c₂, c₃], _, hvalues, hlast => by
    obtain rfl : c₃ = '=' := Option.some.inj hlast
    have hv : ∀ c ∈ [c₀, c₁, c₂], ∃ v, b64Value c = some v := fun c hc =>
      Option.isSome_iff_exists.mp (hvalues c hc)
    obtain ⟨v₀, h₀⟩ := hv c₀ (by simp)
    obtain ⟨v₁, h₁⟩ := hv c₁ (by simp)
    obtain ⟨v₂, h₂⟩ := hv c₂ (by simp)
    exact ⟨_, b64Groups_pair [] h₀ h₁ h₂, rfl⟩
  | n + 1, c₀ :: c₁ :: c₂ :: c₃ :: t, hlen, hvalues, hlast => by
    rw [take_groups] at hvalues
    simp only [List.length_cons] at hlen
    have hv : ∀ c ∈ [c₀, c₁, c₂, c₃], ∃ v, b64Value c = some v := fun c hc =>
      Option.isSome_iff_exists.mp (hvalues c (by
        simp only [List.mem_cons, List.not_mem_nil, or_false] at hc ⊢
        tauto))
    obtain ⟨v₀, h₀⟩ := hv c₀ (by simp)
    obtain ⟨v₁, h₁⟩ := hv c₁ (by simp)
    obtain ⟨v₂, h₂⟩ := hv c₂ (by simp)
    obtain ⟨v₃, h₃⟩ := hv c₃ (by simp)
    obtain ⟨key, hkey, hk⟩ := b64Groups_of_values n t (by omega)
      (fun c hc => hvalues c (by simp [hc])) hlast
    refine ⟨_, by rw [b64Groups_cons t h₀ h₁ h₂ h₃, hkey]; rfl, ?_⟩
    simp only [List.length_cons, hk]
    omega

omit hu in
/-- Padding before the end cuts the key short. -/
theorem no_pad_of_b64Groups : ∀ (n : ℕ) (t : Text) (key : Bytes), t.length = 4 * n + 4 →
    b64Groups t = some key → key.length = 3 * n + 2 → '=' ∉ t.take (4 * n + 3)
  | n, c₀ :: c₁ :: c₂ :: c₃ :: t, key, hlen, h, hk => by
    simp only [List.length_cons] at hlen
    obtain ⟨v₀, v₁, h₀, h₁, hone | ⟨v₂, h₂, ⟨rfl, rfl⟩ | ⟨v₃, out, h₃, hout, rfl⟩⟩⟩ :=
      b64Groups_some h
    · omega
    · simp only [List.length_cons, List.length_nil] at hk
      obtain rfl : n = 0 := by omega
      simp [(ne_pad h₀).symm, (ne_pad h₁).symm, (ne_pad h₂).symm]
    · simp only [List.length_cons] at hk
      obtain ⟨m, rfl⟩ : ∃ m, n = m + 1 := ⟨n - 1, by omega⟩
      have ih := no_pad_of_b64Groups m t out (by omega) hout (by omega)
      rw [take_groups]
      simp [(ne_pad h₀).symm, (ne_pad h₁).symm, (ne_pad h₂).symm, (ne_pad h₃).symm, ih]

omit hu in
theorem b64Value_isSome {c : Char} (h : c.isAlphanum ∨ c = '+' ∨ c = '/') : (b64Value c).isSome := by
  unfold b64Value
  split_ifs with h1 h2 h3 h4 h5
  all_goals try rfl
  rcases h with h | h | h
  · simp only [Char.isAlphanum, Char.isAlpha, Char.isUpper, Char.isLower, Char.isDigit,
      Bool.or_eq_true, Bool.and_eq_true, decide_eq_true_eq] at h
    rcases h with (h | h) | h
    · exact absurd h h1
    · exact absurd h h2
    · exact absurd h h3
  · exact absurd h h4
  · exact absurd h h5

/-- A valid key's text is of base64 but for padding before its end. -/
theorem decodeBase64_valid {val : Text} (h : isValidBase64Key u val) (hascii : isAscii val)
    (hcr : '\r' ∉ val) (htrim : trimmed val = val) :
    (decodeBase64 val).isSome ↔ '=' ∉ val.take 43 := by
  unfold isValidBase64Key at h
  simp only [htrim, Bool.decide_and, Bool.and_eq_true, decide_eq_true_eq] at h
  obtain ⟨hlen, hend, hall⟩ := h
  rw [hu.characters val hascii hcr, List.length_map] at hlen
  constructor
  · intro hdec
    obtain ⟨key, hkey⟩ := Option.isSome_iff_exists.mp hdec
    obtain ⟨-, hgroups, hk⟩ := decodeBase64_some hkey
    exact no_pad_of_b64Groups 10 val key hlen hgroups hk
  · intro hpad
    have hlast : val[43]? = some '=' := by
      unfold Unicode.endsWith at hend
      rw [hu.characters val hascii hcr, List.getLast?_map, List.getLast?_eq_getElem?, hlen] at hend
      obtain ⟨t, ht, hsame⟩ := (Option.any_eq_true _ _).mp hend
      obtain ⟨c, hc, rfl⟩ := Option.map_eq_some_iff.mp ht
      rw [same_ascii hu (isAscii_char hascii (List.mem_of_getElem? hc)) (by decide),
        List.cons.injEq] at hsame
      exact hsame.1 ▸ hc
    have hvalues : ∀ c ∈ val.take 43, (b64Value c).isSome := fun c hc => by
      have hc' := List.mem_of_mem_take hc
      have hbase := of_decide_eq_true (List.all_eq_true.mp hall c hc')
      rw [hu.alphanumerics c (of_decide_eq_true (List.all_eq_true.mp hascii c hc'))] at hbase
      refine b64Value_isSome (hbase.imp_right fun hsign => ?_)
      have hne : c ≠ '=' := fun e => hpad (e ▸ hc)
      simpa [hne] using hsign
    obtain ⟨key, hkey, hk⟩ := b64Groups_of_values 10 val hlen hvalues hlast
    rw [decodeBase64, if_neg (not_not.mpr hlen), hkey, Option.bind_some,
      if_neg (not_not.mpr hk)]
    rfl

end Validator

section Left

open WGConfigValidator

variable {u : Unicode} {p : Prims}

/-- What is left to ask of an entry that has been checked. -/
def EntryUnchecked (p : Prims) : SectionKind → Text × Text → Prop
  | .interface, (key, val) =>
    (key = "PrivateKey".toList → '=' ∉ val.take 43)
    ∧ (key = "ListenPort".toList → 1 ≤ atoi val ∧ atoi val ≤ 65535)
    ∧ (key = "Address".toList → val.length < 256
      ∧ ∀ t ∈ listed (strtok ',' val), (parseIfaceAddr p t).isSome)
  | .peer, (key, val) =>
    (key = "PublicKey".toList → '=' ∉ val.take 43)
    ∧ (key = "PresharedKey".toList → (decodeBase64 val).isSome)
    ∧ (key = "Endpoint".toList → ∀ host port, strrchr ':' val = some (host, port) →
      host ≠ [] ∧ host.length < 128 ∧ 1 ≤ strtol port ∧ strtol port ≤ 65535)
    ∧ (key = "AllowedIPs".toList → val.length < 512
      ∧ ∀ t ∈ listed (strtok ',' val), (parseCidr p t).isSome)
  | .other, _ => True

/-- What is left to ask of the sections of a text without errors. -/
structure Unchecked (p : Prims) (sections : List ConfigSection) : Prop where
  entries : ∀ s ∈ sections, ∀ e ∈ s.2, EntryUnchecked p s.1 e
  addresses : (listedIn "Address" (interfaceEntries sections)).length ≤ wgsMaxIfaceAddrs
  peers : (peerSections sections).length ≤ wgsMaxPeers
  allowed : ∀ es ∈ peerSections sections, (listedIn "AllowedIPs" es).length ≤ wgsMaxAllowedCidrs
  publicKey : ∀ es ∈ peerSections sections, ∃ val key,
    (valuesOf "PublicKey" es).getLast? = some val ∧ decodeBase64 val = some key
      ∧ ¬ key.all (· = 0)

/-- The validator and the parser read a text alike, in ASCII. -/
structure ReadAlike (u : Unicode) (config : Text) : Prop where
  sections : validatorSections u config = parserSections (utf8 config)
  ascii : ∀ s ∈ validatorSections u config, ∀ e ∈ s.2,
    isAscii e.1 ∧ isAscii e.2 ∧ '\r' ∉ e.2

theorem splitEndpoint_colon {val : Text} (h : ':' ∈ val) : (splitEndpoint val).isSome ↔
    ∀ host port, strrchr ':' val = some (host, port) →
      host ≠ [] ∧ host.length < 128 ∧ 1 ≤ strtol port ∧ strtol port ≤ 65535 := by
  obtain ⟨⟨host, port⟩, hlast⟩ : ∃ x, strrchr ':' val = some x := by
    unfold strrchr strchr
    rw [if_pos (List.mem_reverse.mpr h)]
    exact ⟨_, rfl⟩
  unfold splitEndpoint parsePort
  rw [hlast, Option.bind_some]
  simp only [Option.some.injEq, Prod.mk.injEq]
  constructor
  · rintro hsome host' port' ⟨rfl, rfl⟩
    split at hsome
    · cases hsome
    · next hhost =>
      rw [Option.isSome_map] at hsome
      split at hsome
      · cases hsome
      · have : host ≠ [] := fun e => hhost (.inl (by rw [e]; rfl))
        exact ⟨this, by omega, by omega, by omega⟩
  · intro hall
    obtain ⟨hne, hlen, hlow, hhigh⟩ := hall host port ⟨rfl, rfl⟩
    have hpos := List.length_pos_iff.mpr hne
    rw [if_neg (by omega), if_neg (by omega)]
    rfl

theorem entry_mem_items (kind : Text → SectionKind) : ∀ items : List ConfigItem,
    (∀ e ∈ (sectionsOf kind items).1, .entry e.1 e.2 ∈ items)
      ∧ ∀ s ∈ (sectionsOf kind items).2, ∀ e ∈ s.2, .entry e.1 e.2 ∈ items
  | [] => ⟨List.forall_mem_nil _, List.forall_mem_nil _⟩
  | .entry key val :: items => by
    obtain ⟨hlead, hsections⟩ := entry_mem_items kind items
    refine ⟨List.forall_mem_cons.mpr ⟨List.mem_cons_self, fun e he => ?_⟩, fun s hs e he => ?_⟩
    · exact List.mem_cons_of_mem _ (hlead e he)
    · exact List.mem_cons_of_mem _ (hsections s hs e he)
  | .header title :: items => by
    obtain ⟨hlead, hsections⟩ := entry_mem_items kind items
    refine ⟨List.forall_mem_nil _, List.forall_mem_cons.mpr ⟨fun e he => ?_, fun s hs e he => ?_⟩⟩
    · exact List.mem_cons_of_mem _ (hlead e he)
    · exact List.mem_cons_of_mem _ (hsections s hs e he)

/-- The validator's values are trimmed. -/
theorem trimmed_value {config : Text} {s : ConfigSection} (hs : s ∈ validatorSections u config)
    {e : Text × Text} (he : e ∈ s.2) : trimmed e.2 = e.2 := by
  obtain ⟨line, -, hitem⟩ := List.mem_filterMap.mp ((entry_mem_items _ _).2 s hs e he)
  unfold validatorItem at hitem
  split at hitem
  · cases hitem
  · split at hitem
    · cases hitem
    · split at hitem
      · next key val _ =>
        simp only [Option.some.injEq, ConfigItem.entry.injEq] at hitem
        rw [← hitem.2, trimmed_trimmed]
      · cases hitem

variable (hu : u.Standard)
include hu

theorem contains_colon {val : Text} (hval : isAscii val) (hcr : '\r' ∉ val)
    (h : u.contains ':' val) : ':' ∈ val := by
  unfold Unicode.contains at h
  rw [hu.characters val hval hcr] at h
  obtain ⟨t, ht, hsame⟩ := List.any_eq_true.mp h
  obtain ⟨c, hc, rfl⟩ := List.mem_map.mp ht
  rw [same_ascii hu (isAscii_char hval hc) (by decide), List.cons.injEq] at hsame
  exact hsame.1 ▸ hc

theorem entry_left {kind : SectionKind} {e : Text × Text} (h : EntryChecked u kind e)
    (hkey : isAscii e.1) (hval : isAscii e.2) (hcr : '\r' ∉ e.2) (htrim : trimmed e.2 = e.2) :
    EntryReadable p kind e ↔ EntryUnchecked p kind e := by
  obtain ⟨key, val⟩ := e
  have hsame : ∀ {word : Text}, isAscii word → key = word → u.same key word := fun hw e =>
    (same_ascii hu hkey hw).mpr e
  cases kind with
  | interface =>
    refine and_congr_left fun _ => imp_congr_right fun e => ?_
    exact decodeBase64_valid hu (h (hsame (by decide) e)) hval hcr htrim
  | peer =>
    obtain ⟨hpub, hend⟩ := h
    refine and_congr (imp_congr_right fun e => ?_) (and_congr_right fun _ =>
      and_congr_left fun _ => imp_congr_right fun e => ?_)
    · exact decodeBase64_valid hu (hpub (hsame (by decide) e)) hval hcr htrim
    · exact splitEndpoint_colon (contains_colon hu hval hcr (hend (hsame (by decide) e)))
  | other => exact Iff.rfl

theorem readable_iff_unchecked {config : Text} (h : (validate u config).isValid)
    (halike : ReadAlike u config) : Readable p (parserSections (utf8 config))
      ↔ Unchecked p (parserSections (utf8 config)) := by
  obtain ⟨hchecked, ⟨s, hs, hkind, e, he, hpriv⟩, s', hs', hkind'⟩ := valid_checked hu h
  have hentry : ∀ s ∈ parserSections (utf8 config), ∀ e ∈ s.2,
      (EntryReadable p s.1 e ↔ EntryUnchecked p s.1 e) := fun s hs e he => by
    rw [← halike.sections] at hs
    obtain ⟨hkey, hval, hcr⟩ := halike.ascii s hs e he
    exact entry_left hu (hchecked s hs e he) hkey hval hcr (trimmed_value hs he)
  constructor
  · rintro ⟨⟨hentries, haddrs, hpeers, hallowed⟩, -, -, hpub⟩
    exact ⟨fun s hs e he => (hentry s hs e he).mp (hentries s hs e he), haddrs, hpeers, hallowed,
      hpub⟩
  · rintro ⟨hentries, haddrs, hpeers, hallowed, hpub⟩
    refine ⟨⟨fun s hs e he => (hentry s hs e he).mpr (hentries s hs e he), haddrs, hpeers,
      hallowed⟩, ?_, ?_, hpub⟩
    · rw [same_ascii hu (halike.ascii s hs e he).1 (by decide)] at hpriv
      rw [halike.sections] at hs
      refine List.ne_nil_of_mem (a := e.2) (List.mem_map.mpr ⟨e, ?_, rfl⟩)
      refine List.mem_filter.mpr ⟨?_, decide_eq_true hpriv⟩
      exact List.mem_flatMap.mpr ⟨s, List.mem_filter.mpr ⟨hs, decide_eq_true hkind⟩, he⟩
    · rw [halike.sections] at hs'
      refine List.ne_nil_of_mem (a := s'.2) (List.mem_map.mpr ⟨s', ?_, rfl⟩)
      exact List.mem_filter.mpr ⟨hs', decide_eq_true hkind'⟩

end Left

namespace Specimen

/-- Every code point is a character. -/
def scalars : Unicode := ⟨fun t => t.map fun c => [c], id, Char.isAlphanum⟩

theorem scalars_standard : scalars.Standard where
  characters := fun _ _ _ => rfl
  canonical := fun _ _ => rfl
  alphanumerics := fun _ _ => rfl

/-- A peer at this endpoint. -/
def validated (endpoint : String) : Text :=
  "[Interface]\nPrivateKey = ".toList ++ keyA.toList ++ "\nAddress = 10.0.0.1/24\n\n".toList
    ++ "[Peer]\nPublicKey = ".toList ++ keyB.toList ++ "\nEndpoint = ".toList ++ endpoint.toList
    ++ "\nAllowedIPs = 10.0.0.2/32\n".toList

end Specimen

end PolarWG
