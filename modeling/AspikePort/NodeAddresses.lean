import AspikePort.FallibleLoops
import AspikePort.InfoRender
import AspikePort.NifWorld

/-!
# The addresses of the nodes

A node is listed by its name and the address text of the client. The text is
split at its first `:`, which in an IPv6 text stands inside the brackets, so
only the nodes with an IPv4 address come out of the list.
-/

set_option autoImplicit false

namespace AspikePort.NodeAddresses
open AspikePort.CharData AspikePort.EarlyReturn AspikePort.FallibleLoops AspikePort.InfoRender
open AspikePort.NifWorld Proc

section Addresses

/-- `inet:ip_address()`. -/
inductive IpAddress where
  | v4 (a b c d : Fin 256)
  | v6 (groups : Fin 8 → Fin 65536)

def IpAddress.isV4 : IpAddress → Bool
  | .v4 _ _ _ _ => true
  | .v6 _ => false

structure ClusterNode where
  name : Chars
  address : IpAddress
  port : UInt16

def decimal (n : ℕ) : Chars := Nat.toDigits 10 n

def printV4 (a b c d : Fin 256) : Chars :=
  [a,b,c,d].map (fun byte => decimal byte.val) |> ['.'].intercalate

/-- The address without its port; how the client prints IPv6 is left open. -/
def printAddress (printV6 : (Fin 8 → Fin 65536) → Chars) : IpAddress → Chars
  | .v4 a b c d => printV4 a b c d
  | .v6 groups => printV6 groups

/-- `as_node_get_address_string` -/
def addressString (printV6 : (Fin 8 → Fin 65536) → Chars) (node : ClusterNode) : Chars :=
  match node.address with
  | .v4 a b c d => printV4 a b c d ++ ':'::decimal node.port.toNat
  | .v6 groups => '['::(printV6 groups ++ ']' :: ':' :: decimal node.port.toNat)

end Addresses

section Rendering
variable (parseAddress : Chars → Option IpAddress)

inductive NodeError where
  | reply (r : Reply)
  /-- `{E, S}`, where `E` is what `inet:parse_address` answered. -/
  | address (s : Chars)

def listToInteger (cs : Chars) : Option ℤ :=
  match toInteger cs with
  | some (n,[]) => some n
  | _ => none

def nodeRender : Except NodeError Chars → Option (Except NodeError (IpAddress × ℤ))
  | .ok s => do
    let (a,p) ← pair (splitLeading ':' (ofChars s))
    match parseAddress a.chars with
    | some r => do
      let port ← listToInteger p.chars
      some (.ok (r,port))
    | none => some (.error (.address s))
  | .error arg => some (.error arg)

/-- Each cell goes in front of the list. -/
def nifNodeNames (printV6 : (Fin 8 → Fin 65536) → Chars) (nodes : List ClusterNode) :
    Nif (List (Chars × Chars)) := do
  isConnected
  touchClient
  return nodes.foldl (fun lst node => (node.name,addressString printV6 node)::lst) []

def nodeNames (reply : Except Reply (List (Chars × Chars))) :
    Option (Except Reply (List (Chars × IpAddress × ℤ))) :=
  match reply with
  | .ok l => do
    let t ← l.mapM (fun e => do
      let r ← nodeRender parseAddress (.ok e.2)
      some (e.1,r))
    some (.ok (t.filterMap (fun e => e.2.toOption.map (fun y => (e.1,y)))))
  | .error any => some (.error any)

end Rendering

section Decimals

theorem decimal_digit {c : Char} {n : ℕ} (h : c ∈ decimal n) : c.isDigit = true :=
  Nat.isDigit_of_mem_toDigits (by decide) (by decide) h

theorem unsignedInteger_decimal (n : ℕ) : unsignedInteger (decimal n) = some ((n : ℤ),[]) := by
  have htake : (decimal n).takeWhile Char.isDigit = decimal n :=
    List.takeWhile_eq_self_iff.mpr (fun _ h => decimal_digit h)
  have hdrop : (decimal n).dropWhile Char.isDigit = [] :=
    List.dropWhile_eq_nil_iff.mpr (fun _ h => decimal_digit h)
  unfold unsignedInteger
  rw [List.span_eq_takeWhile_dropWhile,htake,hdrop]
  have hvalue : Nat.ofDigitChars 10 (decimal n) 0 = n := Nat.ofDigitChars_ten_toDigits
  cases hd : decimal n with
  | nil => exact absurd hd Nat.toDigits_ne_nil
  | cons c cs =>
    rw [hd] at hvalue
    simp [hvalue]

theorem listToInteger_decimal (n : ℕ) : listToInteger (decimal n) = some (n : ℤ) := by
  have hplain : toInteger (decimal n) = unsignedInteger (decimal n) := by
    unfold toInteger
    split
    · next heq =>
      have hdigit := decimal_digit (c := '-') (n := n) (by rw [heq]; exact List.mem_cons_self)
      exact absurd hdigit (by decide)
    · next heq =>
      have hdigit := decimal_digit (c := '+') (n := n) (by rw [heq]; exact List.mem_cons_self)
      exact absurd hdigit (by decide)
    · rfl
  unfold listToInteger
  rw [hplain,unsignedInteger_decimal]

theorem printV4_plain (a b c d : Fin 256) : ':' ∉ printV4 a b c d := by
  intro h
  rcases mem_intercalate h with h | ⟨part,hpart,hc⟩
  · exact absurd h (by decide)
  · obtain ⟨byte,_,rfl⟩ := List.mem_map.mp hpart
    exact absurd (decimal_digit hc) (by decide)

end Decimals

section Listing
variable {parseAddress : Chars → Option IpAddress} {printV6 : (Fin 8 → Fin 65536) → Chars}

def ClusterNode.target (node : ClusterNode) : IpAddress × ℤ := (node.address,node.port.toNat)

/-- What becomes of the text of a node. -/
def rendered (printV6 : (Fin 8 → Fin 65536) → Chars) (node : ClusterNode) :
    Except NodeError (IpAddress × ℤ) :=
  if node.address.isV4 then .ok node.target else .error (.address (addressString printV6 node))

theorem nodeRender_v4 {node : ClusterNode} {a b c d : Fin 256} (hv4 : node.address = .v4 a b c d)
    (hparse : parseAddress (printV4 a b c d) = some node.address) :
    nodeRender parseAddress (.ok (addressString printV6 node)) = some (.ok node.target) := by
  have htext : addressString printV6 node = printV4 a b c d ++ ':'::decimal node.port.toNat := by
    rw [addressString,hv4]
  rw [nodeRender,htext,pair_append (printV4_plain a b c d)]
  simp [hparse,listToInteger_decimal,ClusterNode.target]

/-- The first `:` stands inside the brackets. -/
theorem nodeRender_bracket {cs : Chars} (hcolon : ':' ∈ cs)
    (hreject : ∀ t : Chars, '[' ∈ t → parseAddress t = none) :
    nodeRender parseAddress (.ok ('['::cs)) = some (.error (.address ('['::cs))) := by
  obtain ⟨before,rest,rfl,habsent⟩ := List.eq_append_cons_of_mem hcolon
  have hbefore : ':' ∉ '['::before := by
    rw [List.mem_cons,not_or]
    exact ⟨by decide,habsent⟩
  have hparse := hreject ('['::before) List.mem_cons_self
  rw [nodeRender,← List.cons_append,pair_append hbefore]
  simp only [Option.bind_eq_bind,Option.bind_some,chars_ofChars,hparse]

theorem nodeRender_string {node : ClusterNode}
    (hparse : parseAddress (printAddress printV6 node.address) = some node.address)
    (hreject : ∀ t : Chars, '[' ∈ t → parseAddress t = none) :
    nodeRender parseAddress (.ok (addressString printV6 node)) = some (rendered printV6 node) := by
  cases haddress : node.address with
  | v4 a b c d =>
    rw [haddress] at hparse
    rw [nodeRender_v4 haddress (haddress ▸ hparse)]
    simp [rendered,haddress,IpAddress.isV4]
  | v6 groups =>
    have htext : addressString printV6 node =
        '['::(printV6 groups ++ ']' :: ':' :: decimal node.port.toNat) := by
      rw [addressString,haddress]
    have hcolon : ':' ∈ printV6 groups ++ ']' :: ':' :: decimal node.port.toNat := by simp
    rw [htext,nodeRender_bracket hcolon hreject,rendered,haddress,htext]
    rfl

theorem nifNodeNames_run {w : World} (hconnected : w.isConnectedFlag = true)
    (nodes : List ClusterNode) : (nifNodeNames printV6 nodes w).1 =
      .ok (nodes.reverse.map (fun node => (node.name,addressString printV6 node))) := by
  have hloop : nodes.foldl (fun lst node => (node.name,addressString printV6 node)::lst) [] =
      nodes.reverse.map (fun node => (node.name,addressString printV6 node)) := by
    induction nodes using List.reverseRecOn with
    | nil => rfl
    | append_singleton nodes node ih => simp [ih]
  unfold nifNodeNames
  rw [isConnected_bind_run _ hconnected,hloop]
  rfl

theorem rendered_kept (nodes : List ClusterNode) :
    nodes.filterMap (fun node =>
      (rendered printV6 node).toOption.map (fun y => (node.name,y))) =
    (nodes.filter (·.address.isV4)).map (fun node => (node.name,node.target)) := by
  induction nodes with
  | nil => rfl
  | cons node nodes ih =>
    by_cases h : node.address.isV4 = true
    · simp [rendered,h,Except.toOption,← ih]
    · simp [rendered,h,Except.toOption,← ih]

/-- Exactly the nodes with an IPv4 address are listed, last node first. -/
theorem nodeNames_run {w : World} (hconnected : w.isConnectedFlag = true)
    (nodes : List ClusterNode) (hparse : ∀ node ∈ nodes,
      parseAddress (printAddress printV6 node.address) = some node.address)
    (hreject : ∀ t : Chars, '[' ∈ t → parseAddress t = none) :
    nodeNames parseAddress (nifNodeNames printV6 nodes w).1 =
      some (.ok ((nodes.reverse.filter (·.address.isV4)).map (fun node =>
        (node.name,node.target)))) := by
  have hall : ∀ node ∈ nodes.reverse, nodeRender parseAddress (.ok (addressString printV6 node)) =
      some (rendered printV6 node) := by
    intro node hnode
    exact nodeRender_string (hparse node (List.mem_reverse.mp hnode)) hreject
  have hlist : (nodes.reverse.map (fun node => (node.name,addressString printV6 node))).mapM
      (fun e => (nodeRender parseAddress (.ok e.2)).bind (fun r => some (e.1,r))) =
      some (nodes.reverse.map (fun node => (node.name,rendered printV6 node))) := by
    rw [List.mapM_map]
    apply mapM_some_map
    intro node hnode
    simp [hall node hnode]
  rw [nifNodeNames_run hconnected,nodeNames]
  simp only [Option.bind_eq_bind,hlist,Option.bind_some,List.filterMap_map]
  exact congrArg (fun l => some (Except.ok l)) (rendered_kept nodes.reverse)

/-- Every node is listed with its address and port, and its text renders to
them, exactly when all addresses are IPv4. -/
theorem nodes_listed_iff {w : World} (hconnected : w.isConnectedFlag = true)
    (nodes : List ClusterNode) (hparse : ∀ node ∈ nodes,
      parseAddress (printAddress printV6 node.address) = some node.address)
    (hreject : ∀ t : Chars, '[' ∈ t → parseAddress t = none) :
    ((∃ l, nodeNames parseAddress (nifNodeNames printV6 nodes w).1 = some (.ok l) ∧
        l.Perm (nodes.map (fun node => (node.name,node.target)))) ∧
      ∀ node ∈ nodes, nodeRender parseAddress (.ok (addressString printV6 node)) =
        some (.ok node.target)) ↔ ∀ node ∈ nodes, node.address.isV4 = true := by
  constructor
  · rintro ⟨-,hrender⟩ node hnode
    by_contra hv6
    have hone := hrender node hnode
    rw [nodeRender_string (hparse node hnode) hreject,rendered,if_neg hv6] at hone
    cases hone
  · intro hv4
    constructor
    · refine ⟨_,nodeNames_run hconnected nodes hparse hreject,?_⟩
      rw [List.filter_eq_self.mpr (fun node h => hv4 node (List.mem_reverse.mp h))]
      exact (List.reverse_perm nodes).map _
    · intro node hnode
      rw [nodeRender_string (hparse node hnode) hreject,rendered,if_pos (hv4 node hnode)]

def localNodes : List ClusterNode :=
  [⟨['A'],.v4 127 0 0 1,3000⟩,⟨['B'],.v4 10 0 0 7,3001⟩]

def parseLocal (cs : Chars) : Option IpAddress :=
  if cs = "127.0.0.1".toList then some (.v4 127 0 0 1)
  else if cs = "10.0.0.7".toList then some (.v4 10 0 0 7)
  else none

theorem local_node_listed :
    (∃ l, nodeNames parseLocal (nifNodeNames (fun _ => "::1".toList) localNodes
        connectedWorld).1 = some (.ok l) ∧
      l.Perm (localNodes.map (fun node => (node.name,node.target)))) ∧
    ∀ node ∈ localNodes, nodeRender parseLocal
      (.ok (addressString (fun _ => "::1".toList) node)) = some (.ok node.target) := by
  have hboth : ∀ {P : ClusterNode → Prop}, P ⟨['A'],.v4 127 0 0 1,3000⟩ →
      P ⟨['B'],.v4 10 0 0 7,3001⟩ → ∀ node ∈ localNodes, P node :=
    fun hA hB => List.forall_mem_cons.mpr ⟨hA,List.forall_mem_cons.mpr ⟨hB,nofun⟩⟩
  apply (nodes_listed_iff rfl localNodes (hboth rfl rfl) ?_).mpr (hboth rfl rfl)
  intro t ht
  unfold parseLocal
  rw [if_neg,if_neg]
  · rintro rfl
    exact absurd ht (by decide)
  · rintro rfl
    exact absurd ht (by decide)

def loopback : IpAddress := .v6 (fun i => if i = 7 then 1 else 0)

/-- `[::1]:3000` is split behind `[`. -/
theorem bracketed_node_dropped : ¬∀ (parseAddress : Chars → Option IpAddress)
    (printV6 : (Fin 8 → Fin 65536) → Chars) (w : World) (nodes : List ClusterNode),
    w.isConnectedFlag = true →
    (∀ node ∈ nodes, parseAddress (printAddress printV6 node.address) = some node.address) →
    (∀ t : Chars, '[' ∈ t → parseAddress t = none) →
    (∃ l, nodeNames parseAddress (nifNodeNames printV6 nodes w).1 = some (.ok l) ∧
      l.Perm (nodes.map (fun node => (node.name,node.target)))) ∧
    ∀ node ∈ nodes, nodeRender parseAddress (.ok (addressString printV6 node)) =
      some (.ok node.target) := by
  intro hall
  have hreject : ∀ t : Chars, '[' ∈ t →
      (if t = "::1".toList then some loopback else none) = none := by
    intro t ht
    apply if_neg
    rintro rfl
    exact absurd ht (by decide)
  have hone := hall (fun t => if t = "::1".toList then some loopback else none)
    (fun _ => "::1".toList) connectedWorld [⟨['A'],loopback,3000⟩] rfl
    (by
      intro node hnode
      rw [List.mem_singleton.mp hnode]
      rfl) hreject
  have hrender := hone.2 _ List.mem_cons_self
  rw [nodeRender_string rfl hreject] at hrender
  cases hrender

end Listing

end AspikePort.NodeAddresses
