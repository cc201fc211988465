import PolarWG.Lib.Trim
import PolarWG.WGConf
import PolarWG.Proofs.Mesh

/-!
# The agent reads its own lines

What the agent's parser makes of texts that are built line by line: the lines come back, a rendered
field is its key with the trimmed value, and a block is a peer.
-/

namespace PolarWG

open Trim

/-! ## Trimming -/

theorem trimmed_eq (t : Text) : trimmed t = (t.dropWhile isWhitespaces).rdropWhile isWhitespaces := rfl

theorem trimmed_rdropWhile (t : Text) : trimmed (t.rdropWhile isWhitespaces) = trimmed t := by
  rw [trimmed_eq, dropWhile_rdropWhile, trimmed_eq]
  exact List.rdropWhile_idempotent _ _

theorem trimmed_blank (t : Text) : trimmed (' ' :: t) = trimmed t := by
  rw [trimmed_eq, List.dropWhile_cons_of_pos (by decide), trimmed_eq]

theorem trimmed_trimmed (t : Text) : trimmed (trimmed t) = trimmed t := by
  rw [trimmed_eq t, trimmed_rdropWhile, trimmed_eq, List.dropWhile_idempotent]

theorem trimmed_eq_nil {t : Text} : trimmed t = [] ↔ ∀ c ∈ t, isWhitespaces c := by
  rw [trimmed_eq, List.rdropWhile_eq_nil_iff]
  constructor
  · intro h c hc
    by_contra hw
    rw [← List.takeWhile_append_dropWhile (p := isWhitespaces) (l := t)] at hc
    rcases List.mem_append.mp hc with hc | hc
    · exact hw (List.mem_takeWhile_imp hc)
    · exact hw (h c hc)
  · exact fun h c hc => h c ((List.dropWhile_sublist _).subset hc)

/-! ## Lines -/

def OneLine (t : Text) : Prop := ∀ c ∈ t, c ≠ '\n' ∧ c ≠ '\r'

theorem OneLine.append {t u : Text} (ht : OneLine t) (hu : OneLine u) : OneLine (t ++ u) :=
  fun c hc => (List.mem_append.mp hc).elim (ht c) (hu c)

theorem OneLine.const {s : String} (h : s.toList.all fun c => c ≠ '\n' ∧ c ≠ '\r') :
    OneLine s.toList := fun c hc => of_decide_eq_true (List.all_eq_true.mp h c hc)

theorem oneLine_joined {sep : Text} {ts : List Text} (hs : OneLine sep) (h : ∀ t ∈ ts, OneLine t) :
    OneLine (joined sep ts) := fun c hc => by
  rcases mem_joined hc with hc | ⟨t, ht, hc⟩
  · exact hs c hc
  · exact h t ht c hc

theorem oneLine_fmtSigned (n : ℤ) : OneLine (fmtSigned n) := fun c hc => by
  have := plain_fmtSigned n c hc
  refine ⟨?_, ?_⟩
  all_goals
    rintro rfl
    revert this
    decide

theorem splitLines_word : ∀ {t : Text}, OneLine t → splitLines t = [t]
  | [], _ => rfl
  | c :: t, h => by
    obtain ⟨hn, hr⟩ := h c List.mem_cons_self
    have ih := splitLines_word fun d hd => h d (List.mem_cons_of_mem c hd)
    unfold splitLines at ih ⊢
    rw [splitLinesFrom, if_neg fun h => hn h.1, decide_eq_false hr, ih]
    rfl

theorem splitLines_line : ∀ {t : Text}, OneLine t → ∀ rest,
    splitLines (t ++ '\n' :: rest) = t :: splitLines rest
  | [], _, rest => rfl
  | c :: t, h, rest => by
    obtain ⟨hn, hr⟩ := h c List.mem_cons_self
    have ih := splitLines_line (fun d hd => h d (List.mem_cons_of_mem c hd)) rest
    unfold splitLines at ih ⊢
    rw [List.cons_append, splitLinesFrom, if_neg fun h => hn h.1, decide_eq_false hr, ih]
    rfl

theorem splitLines_appendLines : ∀ {lines : List Text}, (∀ l ∈ lines, OneLine l) →
    splitLines (appendLines lines) = lines ++ [[]]
  | [], _ => rfl
  | l :: lines, h => by
    have ih := splitLines_appendLines fun m hm => h m (List.mem_cons_of_mem l hm)
    have hcons : appendLines (l :: lines) = l ++ '\n' :: appendLines lines := by
      simp [appendLines]
    rw [hcons, splitLines_line (h l List.mem_cons_self), ih]
    rfl

theorem splitLines_joined : ∀ {lines : List Text}, (∀ l ∈ lines, OneLine l) → lines ≠ [] →
    splitLines (joined ['\n'] lines) = lines
  | [l], h, _ => by
    rw [joined, List.intercalate_singleton]
    exact splitLines_word (h l List.mem_cons_self)
  | l :: m :: lines, h, _ => by
    have ih := splitLines_joined (fun k hk => h k (List.mem_cons_of_mem l hk)) (by simp)
    have hcons : joined ['\n'] (l :: m :: lines) = l ++ '\n' :: joined ['\n'] (m :: lines) := by
      simp [joined, List.intercalate_cons_cons]
    rw [hcons, splitLines_line (h l List.mem_cons_self), ih]

/-! ## Fields -/

theorem isAlpha_bounds {c : Char} (h : c.isAlpha = true) : 65 ≤ c.toNat ∧ c.toNat ≤ 122 := by
  simp only [Char.isAlpha, Char.isUpper, Char.isLower, Bool.or_eq_true, Bool.and_eq_true,
    decide_eq_true_eq, ge_iff_le, UInt32.le_iff_toNat_le] at h
  have hc : c.toNat = c.val.toNat := rfl
  have hA : 'A'.val.toNat = 65 := rfl
  have hZ : 'Z'.val.toNat = 90 := rfl
  have ha : 'a'.val.toNat = 97 := rfl
  have hz : 'z'.val.toNat = 122 := rfl
  omega

theorem not_isWhitespaces_of_bounds {c : Char} (h : 33 ≤ c.toNat ∧ c.toNat < 160) :
    ¬ isWhitespaces c := by
  simp only [isWhitespaces, isSpaceSeparator, Bool.decide_or, Bool.or_eq_true, decide_eq_true_eq,
    Bool.decide_and, Bool.and_eq_true, not_or]
  refine ⟨?_, by omega⟩
  rintro rfl
  simp at h

theorem trimmed_dropWhile (t : Text) : trimmed (t.dropWhile isWhitespaces) = trimmed t := by
  rw [trimmed_eq, List.dropWhile_idempotent, trimmed_eq]

theorem trimmed_append_blanks (t : Text) (n : ℕ) : trimmed (t ++ List.replicate n ' ') = trimmed t := by
  rw [← trimmed_rdropWhile,
    rdropWhile_append_of_pos fun c hc => by rw [List.eq_of_mem_replicate hc]; decide,
    trimmed_rdropWhile]

/-- A key that starts neither a comment nor a section. -/
def FieldKey (key : Text) : Prop :=
  '=' ∉ key ∧ ∀ c ∈ (trimmed key).head?, c ≠ '#' ∧ c ≠ '['

theorem confLine_field {c : ConfState} {key : Text} (h : FieldKey key) (val : Text) :
    confLine c (key ++ '=' :: val) = confKey c (trimmed key) (trimmed val) := by
  have htrim : trimmed (key ++ '=' :: val)
      = key.dropWhile isWhitespaces ++ '=' :: val.rdropWhile isWhitespaces := by
    rw [trimmed_eq, dropWhile_append_cons (by decide), rdropWhile_append_cons (by decide)]
  have heq : '=' ∉ key.dropWhile isWhitespaces := fun hm =>
    h.1 ((List.dropWhile_sublist _).subset hm)
  have hchr := @strchr_append '=' _ (val.rdropWhile isWhitespaces) heq
  have hkey := trimmed_dropWhile key
  unfold confLine
  rw [htrim]
  rcases hd : key.dropWhile isWhitespaces with _ | ⟨d, u⟩
  · rw [hd] at hchr hkey
    simp only [List.nil_append] at hchr ⊢
    rw [if_neg (by decide), if_neg (by decide), hchr]
    simp only [hkey, trimmed_rdropWhile]
  · have hfirst : ¬ isWhitespaces d := by
      have := List.head_dropWhile_not isWhitespaces
        (show key.dropWhile isWhitespaces ≠ [] by simp [hd])
      simpa only [hd, List.head_cons, Bool.not_eq_true] using this
    have hhead : (trimmed key).head? = some d := by
      rw [trimmed_eq, hd, rdropWhile_cons, if_neg fun h => hfirst h.2]
      rfl
    obtain ⟨h1, h2⟩ := h.2 d hhead
    rw [hd] at hchr hkey
    simp only [List.cons_append] at hchr ⊢
    rw [if_neg h1, if_neg h2, hchr]
    simp only [hkey, trimmed_rdropWhile]

theorem Label.alpha {label key : Text} (h : Label label key) : ∀ c ∈ key, c.isAlpha := by
  obtain ⟨n, -, -, hkey⟩ := h
  exact List.all_eq_true.mp hkey

theorem Label.trim_key {label key : Text} (h : Label label key) : trimmed key = key := by
  have hblank : ∀ c ∈ key, ¬ isWhitespaces c := fun c hc =>
    not_isWhitespaces_of_bounds (by have := isAlpha_bounds (h.alpha c hc); omega)
  rw [trimmed_eq, List.dropWhile_eq_self_iff.mpr fun hl => hblank _ (List.getElem_mem hl)]
  exact List.rdropWhile_eq_self_iff.mpr fun hl => hblank _ (List.getLast_mem hl)

/-- A rendered field is its key and the value without its blanks. -/
theorem confLine_label {c : ConfState} {label key : Text} (h : Label label key) (val : Text) :
    confLine c (label ++ val) = confKey c key (trimmed val) := by
  have halpha : ∀ c ∈ key, ∀ d : Char, d.isAlpha = false → c ≠ d := fun c hc d hd => by
    rintro rfl
    rw [h.alpha c hc] at hd
    cases hd
  have hself := h.trim_key
  obtain ⟨n, rfl, -, -⟩ := h
  have htrim : trimmed (key ++ List.replicate n ' ') = key :=
    (trimmed_append_blanks key n).trans hself
  have hfield : FieldKey (key ++ List.replicate n ' ') := by
    refine ⟨fun hm => ?_, fun c hc => ?_⟩
    · rcases List.mem_append.mp hm with hm | hm
      · exact halpha _ hm '=' (by decide) rfl
      · exact absurd (List.eq_of_mem_replicate hm) (by decide)
    · rw [htrim] at hc
      have hmem := List.mem_of_mem_head? hc
      exact ⟨halpha c hmem _ (by decide), halpha c hmem _ (by decide)⟩
  have hline : key ++ List.replicate n ' ' ++ "= ".toList ++ val
      = key ++ List.replicate n ' ' ++ '=' :: ' ' :: val := by simp
  rw [hline, confLine_field hfield, htrim, trimmed_blank]

/-- A line that the agent keeps for the operator. -/
structure WGKeyValue.Kept (kv : WGKeyValue) : Prop where
  field : FieldKey kv.key
  managed : lowercased (trimmed kv.key) ∉
    ["privatekey".toList, "address".toList, "listenport".toList]

theorem confLine_kept {c : ConfState} {kv : WGKeyValue} (h : kv.Kept) (hs : c.sect = .interface) :
    confLine c (kv.key ++ " = ".toList ++ kv.value)
      = { c with interface := { c.interface with
          extras := c.interface.extras ++ [⟨trimmed kv.key, trimmed kv.value⟩] } } := by
  have htrim : trimmed (kv.key ++ [' ']) = trimmed kv.key := trimmed_append_blanks kv.key 1
  have hfield : FieldKey (kv.key ++ [' ']) := by
    refine ⟨fun hm => ?_, htrim ▸ h.field.2⟩
    rcases List.mem_append.mp hm with hm | hm
    · exact h.field.1 hm
    · exact absurd (List.mem_singleton.mp hm) (by decide)
  have hline : kv.key ++ " = ".toList ++ kv.value = kv.key ++ [' '] ++ '=' :: ' ' :: kv.value := by
    simp
  have hm := h.managed
  simp only [List.mem_cons, List.not_mem_nil, or_false, not_or] at hm
  rw [hline, confLine_field hfield, htrim, trimmed_blank]
  unfold confKey interfaceKey
  rw [hs, if_neg hm.1, if_neg hm.2.1, if_neg hm.2.2]

/-! ## Lists -/

theorem splitList_eq (t : Text) : splitList t = ((t.splitOn ',').map trimmed).filter (· ≠ []) := by
  have hnil : ∀ ts : List Text, ((ts.filter (· ≠ [])).map trimmed).filter (· ≠ [])
      = (ts.map trimmed).filter (· ≠ []) := by
    intro ts
    induction ts with
    | nil => rfl
    | cons u ts ih =>
      by_cases hu : u = []
      · rw [List.filter_cons_of_neg (by simpa using hu), ih, List.map_cons,
          List.filter_cons_of_neg (by rw [hu]; decide)]
      · rw [List.filter_cons_of_pos (by simpa using hu), List.map_cons, List.map_cons,
          List.filter_cons, List.filter_cons, ih]
  exact hnil _

theorem splitList_append (t u : Text) : splitList (t ++ ',' :: u) = splitList t ++ splitList u := by
  unfold splitList
  rw [strtok_append, List.map_append, List.filter_append]

theorem trimmed_cons {c : Char} (hc : isWhitespaces c) (t : Text) : trimmed (c :: t) = trimmed t := by
  rw [trimmed_eq, List.dropWhile_cons_of_pos hc, trimmed_eq]

theorem splitList_cons {c : Char} (hc : isWhitespaces c) (t : Text) :
    splitList (c :: t) = splitList t := by
  have hne : c ≠ ',' := by
    rintro rfl
    exact absurd hc (by decide)
  rw [splitList_eq, splitList_eq, List.splitOn_cons_eq_if_modifyHead, if_neg (by simpa using hne)]
  rcases t.splitOn ',' with _ | ⟨x, xs⟩
  · rfl
  · rw [List.modifyHead_cons, List.map_cons, List.map_cons, trimmed_cons hc]

/-- A blank at the end goes with the last piece. -/
theorem splitOn_concat {c : Char} (hc : c ≠ ',') : ∀ t : Text, ∃ xs x,
    t.splitOn ',' = xs ++ [x] ∧ (t ++ [c]).splitOn ',' = xs ++ [x ++ [c]]
  | [] => ⟨[], [], rfl, List.splitOn_eq_singleton (by simpa using hc.symm)⟩
  | d :: t => by
    obtain ⟨xs, x, h1, h2⟩ := splitOn_concat hc t
    rw [List.cons_append, List.splitOn_cons_eq_if_modifyHead, List.splitOn_cons_eq_if_modifyHead,
      h1, h2]
    split
    · exact ⟨[] :: xs, x, rfl, rfl⟩
    · rcases xs with _ | ⟨y, ys⟩
      · exact ⟨[], d :: x, rfl, rfl⟩
      · exact ⟨(d :: y) :: ys, x, rfl, rfl⟩

theorem splitList_concat {c : Char} (hc : isWhitespaces c) (t : Text) :
    splitList (t ++ [c]) = splitList t := by
  have hne : c ≠ ',' := by
    rintro rfl
    exact absurd hc (by decide)
  have htrim : ∀ x : Text, trimmed (x ++ [c]) = trimmed x := fun x => by
    rw [← trimmed_rdropWhile, rdropWhile_append_of_pos fun d hd => by
      rw [List.mem_singleton.mp hd]; exact hc, trimmed_rdropWhile]
  obtain ⟨xs, x, h1, h2⟩ := splitOn_concat hne t
  rw [splitList_eq, splitList_eq, h1, h2, List.map_append, List.map_append, List.map_singleton,
    List.map_singleton, htrim]

/-- The blanks around a list are blanks around its entries. -/
theorem splitList_trimmed (t : Text) : splitList (trimmed t) = splitList t := by
  have hdrop : ∀ t : Text, splitList (t.dropWhile isWhitespaces) = splitList t := by
    intro t
    induction t with
    | nil => rfl
    | cons c t ih =>
      by_cases hc : isWhitespaces c
      · rw [List.dropWhile_cons_of_pos hc, ih, splitList_cons hc]
      · rw [List.dropWhile_cons_of_neg hc]
  have hrdrop : ∀ t : Text, splitList (t.rdropWhile isWhitespaces) = splitList t := by
    intro t
    induction t using List.reverseRecOn with
    | nil => rfl
    | append_singleton t c ih =>
      by_cases hc : isWhitespaces c
      · rw [List.rdropWhile_concat_pos _ _ _ hc, ih, splitList_concat hc]
      · rw [List.rdropWhile_concat_neg _ _ _ hc]
  rw [trimmed_eq, hrdrop, hdrop]

/-! ## Blocks -/

/-- What the lines of a peer are made of. -/
structure Block where
  publicKey : Text
  endpoint : Option Text
  allowedIPs : List Text
  keepalive : ℤ

def Block.lines (b : Block) : List Text :=
  ["[Peer]".toList, "PublicKey  = ".toList ++ b.publicKey]
    ++ b.endpoint.toList.map ("Endpoint   = ".toList ++ ·)
    ++ ["AllowedIPs = ".toList ++ joined ", ".toList b.allowedIPs]
    ++ (if 0 < b.keepalive then ["PersistentKeepalive = ".toList ++ fmtSigned b.keepalive] else [])
    ++ [[]]

/-- The peer that the agent reads there. -/
def Block.peer (b : Block) : WGPeerSection where
  publicKey := trimmed b.publicKey
  endpoint := b.endpoint.bind fun e => if trimmed e = [] then none else some (trimmed e)
  allowedIPs := splitList (trimmed (joined ", ".toList b.allowedIPs))
  keepalive := if 0 < b.keepalive then intOfText (trimmed (fmtSigned b.keepalive)) else none

theorem confLine_peer (c : ConfState) : confLine c "[Peer]".toList
    = { c.flushPeer with sect := .peer, cur := some .blank } := rfl

theorem confLine_nil (c : ConfState) : confLine c [] = c := rfl

theorem foldl_end (c : ConfState) (lines : List Text) :
    (lines ++ [[]]).foldl confLine c = lines.foldl confLine c := by
  rw [List.foldl_append]
  rfl

theorem foldl_block (c : ConfState) (b : Block) : b.lines.foldl confLine c
    = { c.flushPeer with sect := .peer, cur := some b.peer } := by
  have hfield : ∀ {label key : Text} {q : WGPeerSection}, Label label key → ∀ val,
      confLine { c.flushPeer with sect := .peer, cur := some q } (label ++ val)
        = { c.flushPeer with sect := .peer, cur := some (peerKey q key (trimmed val)) } :=
    fun h val => confLine_label h val
  unfold Block.lines
  simp only [List.append_assoc, List.cons_append, List.nil_append, List.foldl_cons,
    List.foldl_append]
  rw [confLine_peer, hfield label_publicKey]
  have hend : ∀ q : WGPeerSection, q.endpoint = none →
      (b.endpoint.toList.map ("Endpoint   = ".toList ++ ·)).foldl confLine
        { c.flushPeer with sect := .peer, cur := some q }
      = { c.flushPeer with
          sect := .peer
          cur := some { q with
            endpoint := b.endpoint.bind fun e => if trimmed e = [] then none else some (trimmed e) } } :=
    fun q hq => by
      rcases b.endpoint with _ | e
      · obtain ⟨k, e, ips, ka⟩ := q
        obtain rfl : e = none := hq
        rfl
      · exact hfield label_endpoint e
  rw [hend _ rfl, hfield label_allowedIps]
  split
  · next hk =>
    rw [List.foldl_cons, List.foldl_nil, hfield label_keepalive, confLine_nil]
    unfold Block.peer
    rw [if_pos hk]
    rfl
  · next hk =>
    rw [List.foldl_nil, confLine_nil]
    unfold Block.peer
    rw [if_neg hk]
    rfl

/-- The peers that blocks are, the ones without a key left out. -/
def keptPeers (bs : List Block) : List WGPeerSection :=
  (bs.map Block.peer).filter (·.publicKey ≠ [])

theorem foldl_blocks : ∀ (bs : List Block) (c : ConfState),
    (((bs.flatMap Block.lines).foldl confLine c).flushPeer.peers
        = c.flushPeer.peers ++ keptPeers bs) ∧
      ((bs.flatMap Block.lines).foldl confLine c).interface = c.interface
  | [], c => by simp [keptPeers]
  | b :: bs, c => by
    rw [List.flatMap_cons, List.foldl_append, foldl_block]
    obtain ⟨h1, h2⟩ :=
      foldl_blocks bs { c.flushPeer with sect := .peer, cur := some b.peer }
    refine ⟨h1.trans ?_, h2⟩
    unfold keptPeers
    by_cases hb : b.peer.publicKey = []
    · rw [List.map_cons, List.filter_cons_of_neg (by simpa using hb)]
      simp [ConfState.flushPeer, hb]
    · rw [List.map_cons, List.filter_cons_of_pos (by simpa using hb)]
      simp [ConfState.flushPeer, hb]

/-! ## The header -/

structure WGInterfaceSection.Tidy (i : WGInterfaceSection) : Prop where
  privateKey : OneLine i.privateKey
  address : OneLine i.address
  listenPort : OneLine i.listenPort
  extras : ∀ kv ∈ i.extras, kv.Kept ∧ OneLine kv.key ∧ OneLine kv.value

def WGInterfaceSection.read (i : WGInterfaceSection) : WGInterfaceSection where
  privateKey := trimmed i.privateKey
  address := trimmed i.address
  listenPort := trimmed i.listenPort
  extras := i.extras.map fun kv => ⟨trimmed kv.key, trimmed kv.value⟩

theorem foldl_extras : ∀ {kvs : List WGKeyValue} {c : ConfState}, (∀ kv ∈ kvs, kv.Kept) →
    c.sect = .interface →
    (kvs.map fun kv => kv.key ++ " = ".toList ++ kv.value).foldl confLine c
      = { c with interface := { c.interface with
          extras := c.interface.extras ++ kvs.map fun kv => ⟨trimmed kv.key, trimmed kv.value⟩ } }
  | [], c, _, _ => by simp
  | kv :: kvs, c, h, hs => by
    rw [List.map_cons, List.foldl_cons, confLine_kept (h kv List.mem_cons_self) hs]
    refine (foldl_extras (fun kv' h' => h kv' (List.mem_cons_of_mem kv h')) ?_).trans ?_
    · exact hs
    · simp

theorem foldl_header {i : WGInterfaceSection} (h : i.Tidy) :
    i.lines.foldl confLine .start = ⟨.interface, i.read, [], none⟩ := by
  have hfield : ∀ {label key : Text} {j : WGInterfaceSection}, Label label key → ∀ val,
      confLine ⟨.interface, j, [], none⟩ (label ++ val)
        = ⟨.interface, interfaceKey j key (trimmed val), [], none⟩ :=
    fun h val => confLine_label h val
  have hstart : confLine .start "[Interface]".toList = ⟨.interface, ⟨[], [], [], []⟩, [], none⟩ := rfl
  unfold WGInterfaceSection.lines
  simp only [List.foldl_append, List.foldl_cons, List.foldl_nil]
  rw [hstart, hfield label_privateKey, hfield label_address, hfield label_listenPort,
    foldl_extras (fun kv hkv => (h.extras kv hkv).1) rfl, confLine_nil]
  rfl

structure Block.OneLine (b : Block) : Prop where
  publicKey : PolarWG.OneLine b.publicKey
  endpoint : ∀ e, b.endpoint = some e → PolarWG.OneLine e
  allowedIPs : ∀ t ∈ b.allowedIPs, PolarWG.OneLine t

theorem Block.OneLine.lines {b : Block} (h : b.OneLine) : ∀ l ∈ b.lines, PolarWG.OneLine l := by
  intro l hl
  unfold Block.lines at hl
  simp only [List.mem_append, List.mem_cons, List.not_mem_nil, or_false, List.mem_map] at hl
  rcases hl with ((((rfl | rfl) | ⟨e, he, rfl⟩) | rfl) | hl) | rfl
  · exact .const rfl
  · exact (OneLine.const rfl).append h.publicKey
  · exact (OneLine.const rfl).append (h.endpoint e (Option.mem_toList.mp he))
  · exact (OneLine.const rfl).append (oneLine_joined (.const rfl) h.allowedIPs)
  · split at hl
    · obtain rfl := List.mem_singleton.mp hl
      exact (OneLine.const rfl).append (oneLine_fmtSigned _)
    · simp at hl
  · simp [PolarWG.OneLine]

theorem WGInterfaceSection.Tidy.lines {i : WGInterfaceSection} (h : i.Tidy) :
    ∀ l ∈ i.lines, OneLine l := by
  intro l hl
  unfold WGInterfaceSection.lines at hl
  simp only [List.mem_append, List.mem_cons, List.not_mem_nil, or_false, List.mem_map] at hl
  rcases hl with ((rfl | rfl | rfl | rfl) | ⟨kv, hkv, rfl⟩) | rfl
  · exact .const rfl
  · exact (OneLine.const rfl).append h.privateKey
  · exact (OneLine.const rfl).append h.address
  · exact (OneLine.const rfl).append h.listenPort
  · obtain ⟨-, hk, hv⟩ := h.extras kv hkv
    exact (hk.append (.const rfl)).append hv
  · simp [OneLine]

/-- All the lines of such a text. -/
theorem oneLine_of_blocks {i : WGInterfaceSection} {bs : List Block} (hi : i.Tidy)
    (hb : ∀ b ∈ bs, b.OneLine) : ∀ l ∈ i.lines ++ bs.flatMap Block.lines, OneLine l := by
  intro l hl
  rcases List.mem_append.mp hl with hl | hl
  · exact hi.lines l hl
  · obtain ⟨b, hmem, hl⟩ := List.mem_flatMap.mp hl
    exact (hb b hmem).lines l hl

/-- The agent reads the interface and the peers of a text of such lines. -/
theorem parse_lines {text : Text} {i : WGInterfaceSection} {bs : List Block} (hi : i.Tidy)
    (hk : trimmed i.privateKey ≠ [])
    (htext : (splitLines text).foldl confLine .start
      = (i.lines ++ bs.flatMap Block.lines).foldl confLine .start) :
    WGConfig.parse text = some ⟨i.read, keptPeers bs⟩ := by
  unfold WGConfig.parse
  rw [htext, List.foldl_append, foldl_header hi]
  obtain ⟨h1, h2⟩ := foldl_blocks bs ⟨.interface, i.read, [], none⟩
  have hinterface : ∀ c : ConfState, c.flushPeer.interface = c.interface := fun c => rfl
  simp only [h1, hinterface, h2]
  exact if_neg hk

theorem WGInterfaceSection.Tidy.filled {i : WGInterfaceSection} (h : i.Tidy)
    {deviceIP : Option Text} (hd : ∀ ip, deviceIP = some ip → OneLine ip) (port : ℤ) :
    (i.filled deviceIP port).Tidy where
  privateKey := h.privateKey
  address := by
    unfold WGInterfaceSection.filled
    rcases deviceIP with _ | ip
    · exact h.address
    · have hip := hd ip rfl
      simp only []
      split
      · split
        · exact hip
        · exact hip.append (.const rfl)
      · exact h.address
  listenPort := by
    unfold WGInterfaceSection.filled
    simp only []
    split
    · exact oneLine_fmtSigned _
    · exact h.listenPort
  extras := h.extras

def WGPeerSection.block (s : WGPeerSection) : Block :=
  ⟨s.publicKey, s.endpoint.filter (· ≠ []), s.allowedIPs, s.keepalive.getD 0⟩

theorem endpoint_line (endpoint : Option Text) : (match endpoint with
    | some ep => if ep ≠ [] then ["Endpoint   = ".toList ++ ep] else []
    | none => []) = (endpoint.filter (· ≠ [])).toList.map ("Endpoint   = ".toList ++ ·) := by
  rcases endpoint with _ | _ | ⟨c, e⟩ <;> rfl

theorem keepalive_line (keepalive : Option ℤ) : (match keepalive with
    | some ka => if 0 < ka then ["PersistentKeepalive = ".toList ++ fmtSigned ka] else []
    | none => []) = if 0 < keepalive.getD 0 then
      ["PersistentKeepalive = ".toList ++ fmtSigned (keepalive.getD 0)] else [] := by
  rcases keepalive with _ | ka <;> rfl

theorem lines_section (s : WGPeerSection) : s.lines = s.block.lines := by
  unfold WGPeerSection.lines Block.lines WGPeerSection.block
  exact congrArg₂ (fun l k => _ ++ l ++ _ ++ k ++ _) (endpoint_line _) (keepalive_line _)

/-- The agent reads what it has rendered: sorting only moves the blocks. -/
theorem keptPeers_perm {bs bs' : List Block} (h : bs.Perm bs') :
    (keptPeers bs).Perm (keptPeers bs') :=
  (h.map _).filter _

theorem sortedPeers_perm (peers : List WGPeerSection) : (sortedPeers peers).Perm peers :=
  List.perm_insertionSort _ _

theorem parse_render_config {c : WGConfig} (hi : c.interface.Tidy)
    (hne : trimmed c.interface.privateKey ≠ []) (hb : ∀ s ∈ c.peers, s.block.OneLine) :
    WGConfig.parse c.render
      = some ⟨c.interface.read, keptPeers ((sortedPeers c.peers).map WGPeerSection.block)⟩ := by
  have hmap : (sortedPeers c.peers).flatMap WGPeerSection.lines
      = ((sortedPeers c.peers).map WGPeerSection.block).flatMap Block.lines := by
    rw [List.flatMap_map]
    exact congrArg (List.flatMap · _) (funext lines_section)
  have hb' : ∀ b ∈ (sortedPeers c.peers).map WGPeerSection.block, b.OneLine := fun b hmem => by
    obtain ⟨s, hs, rfl⟩ := List.mem_map.mp hmem
    exact hb s ((sortedPeers_perm _).subset hs)
  refine parse_lines hi hne ?_
  unfold WGConfig.render
  rw [hmap, splitLines_appendLines (oneLine_of_blocks hi hb'), foldl_end]

end PolarWG
