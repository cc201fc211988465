import PolarWG.PublicIP

/-!
# Egress NAT

`applyEgressNATLinux` of the agent's script: one rule of the packet filter, kept or taken away on
every poll. Of `iptables` there is what the script uses: the words that it takes and what they do.
-/

namespace PolarWG

/-! ## The packet filter -/

/-- What a rule matches, where its packets go, and the rest of its words. -/
structure NatRule where
  source : Option Text
  outIface : Option Text
  jump : Option Text
  rest : List Text
deriving DecidableEq

/-- The chains of each table. -/
abbrev Netfilter := Text → Text → Option (List NatRule)

inductive RuleCommand where
  | check
  | append
  | delete
deriving DecidableEq

structure IptablesArgs where
  table : Text
  command : Option (RuleCommand × Text)
  rule : NatRule

/-- The command that a word asks for; the next word is the chain. -/
def ruleCommand (w : Text) : Option RuleCommand :=
  if w = "-C".toList then some .check
  else if w = "-A".toList then some .append
  else if w = "-D".toList then some .delete
  else none

/-- Each option takes the next word, whatever it is, and a word that no option takes is refused. -/
def iptablesArgs : List Text → IptablesArgs → Option IptablesArgs
  | [], a => some a
  | [_], _ => none
  | w :: v :: ws, a =>
    match ruleCommand w with
    | some command =>
      if a.command = none then iptablesArgs ws { a with command := some (command, v) } else none
    | none =>
      if w = "-t".toList then iptablesArgs ws { a with table := v }
      else if w = "-s".toList then
        iptablesArgs ws { a with rule := { a.rule with source := some v } }
      else if w = "-o".toList then
        iptablesArgs ws { a with rule := { a.rule with outIface := some v } }
      else if w = "-j".toList then
        iptablesArgs ws { a with rule := { a.rule with jump := some v } }
      else none

def Netfilter.set (n : Netfilter) (table chain : Text) (rules : List NatRule) : Netfilter :=
  fun t c => if t = table ∧ c = chain then some rules else n t c

/-- Whether it succeeds, and the filter after it. -/
def iptables (n : Netfilter) (words : List Text) : Bool × Netfilter :=
  let parsed := do
    let a ← iptablesArgs words ⟨"filter".toList, none, ⟨none, none, none, []⟩⟩
    let (command, chain) ← a.command
    let rules ← n a.table chain
    pure (a.table, command, chain, a.rule, rules)
  match parsed with
  | none => (false, n)
  | some (table, .append, chain, rule, rules) => (true, n.set table chain (rules ++ [rule]))
  | some (_, .check, _, rule, rules) => (decide (rule ∈ rules), n)
  | some (table, .delete, chain, rule, rules) =>
    if rule ∈ rules then (true, n.set table chain (rules.erase rule)) else (false, n)

/-! ## The script -/

/-- The filter, and `/proc/sys/net/ipv4/ip_forward` where there is one. -/
structure EgressHost where
  netfilter : Netfilter
  ipForward : Option Text

/-- A poll: whether there is an `iptables`, what `ip route get` prints, and what the answer asks
for. -/
structure EgressCall where
  iface : Text
  installed : Bool
  routeOutput : Text
  enable : Bool

/-- The word after the first `dev`. -/
def egressInterface (routeOutput : Text) : Text :=
  let toks := (routeOutput.splitOnP fun c => c = ' ' ∨ c = '\n').filter (· ≠ [])
  match toks.dropWhile (· ≠ "dev".toList) with
  | _ :: egif :: _ => egif
  | _ => []

/-- The words after the command. -/
def egressRule (supernet egif : Text) : List Text :=
  ["-t".toList, "nat".toList, "POSTROUTING".toList, "-s".toList, supernet, "-o".toList, egif,
    "-j".toList, "MASQUERADE".toList]

def enableForwarding (ipForward : Option Text) : Option Text :=
  ipForward.map fun cur =>
    if ((cur.dropWhile isWhitespaceOrNewline).reverse.dropWhile isWhitespaceOrNewline).reverse
        = ['1'] then cur
    else ['1', '\n']

/-- The host after it, and what is logged. -/
def applyEgressNATLinux (supernet : Text) (h : EgressHost) (c : EgressCall) :
    EgressHost × Option Text :=
  let logLine (t : Text) : Text := '[' :: c.iface ++ "] ".toList ++ t
  if ¬ c.installed then
    (h, if c.enable then some (logLine "egress: iptables not found".toList) else none)
  else
    let egif := egressInterface c.routeOutput
    if egif = [] then
      (h, if c.enable then some (logLine "egress: no default-route iface".toList) else none)
    else
      let rule := egressRule supernet egif
      let (present, n) := iptables h.netfilter ("-C".toList :: rule)
      let h := { h with netfilter := n }
      if c.enable then
        let h := { h with ipForward := enableForwarding h.ipForward }
        if present then (h, none)
        else
          let (added, n) := iptables h.netfilter ("-A".toList :: rule)
          ({ h with netfilter := n }, if added then
            some (logLine ("egress NAT on: ".toList ++ supernet ++ " -> ".toList ++ egif)) else none)
      else if present then
        let (deleted, n) := iptables h.netfilter ("-D".toList :: rule)
        ({ h with netfilter := n },
          if deleted then some (logLine "egress NAT off".toList) else none)
      else (h, none)

def egressStep (supernet : Text) (h : EgressHost) (c : EgressCall) :
    Option (EgressHost × Option Text) := some (applyEgressNATLinux supernet h c)

end PolarWG
