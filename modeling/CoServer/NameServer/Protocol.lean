/-
The name server's registry: nodes by id, node sets by command, domains by name (`ns_protocol.cpp`).

The three levels are maps whose keys are read off from their values (`KeyMap`). A node's id is `inet_addr` of its ip
text in the upper 32 bits and the port in the lower ones; `inet_addr` is a parameter. A set that a C++ function reaches
through a pointer and changes is put back under its key. `entry` is what a query can see: the node that a domain's set
of a command holds under an id.
-/
import CoServer.Core.KeyMap
import CoServer.Core.Update

namespace CoServer.NameServer

open CoServer.Core KeyMap Option

/-! ## Nodes, node sets, domains -/

/-- `NSNode`; the type fixes what `inet_addr` answers -/
structure NSNode (inetAddr : String → UInt32) where
  ip : String
  port : UInt16
  weight : UInt32
deriving DecidableEq

/-- `NSNode::GetID` -/
def getID (inetAddr : String → UInt32) (ip : String) (port : UInt16) : UInt64 :=
  ((inetAddr ip).toUInt64 <<< 32) ||| port.toUInt64

variable {inetAddr : String → UInt32}

def NSNode.id (n : NSNode inetAddr) : UInt64 := getID inetAddr n.ip n.port

structure NSNodeSet (inetAddr : String → UInt32) where
  cmd : UInt32
  datas : KeyMap (@NSNode.id inetAddr)

structure NSDomain (inetAddr : String → UInt32) where
  domain : String
  datas : KeyMap (@NSNodeSet.cmd inetAddr)

open NSDomain

/-- `NSDomainSet::_datas` -/
abbrev NSDomainSet (inetAddr : String → UInt32) := KeyMap (@NSDomain.domain inetAddr)

def NSNodeSet.new (cmd : UInt32) : NSNodeSet inetAddr := ⟨cmd, empty⟩

def NSNodeSet.add (ns : NSNodeSet inetAddr) (info : NSNode inetAddr) : NSNodeSet inetAddr :=
  { ns with datas := ns.datas.add info }

def NSNodeSet.del (ns : NSNodeSet inetAddr) (id : UInt64) : NSNodeSet inetAddr := { ns with datas := ns.datas.erase id }

def NSDomain.new (domain : String) : NSDomain inetAddr := ⟨domain, empty⟩

/-- `NSDomain::add(cmd, info)` -/
def NSDomain.add (d : NSDomain inetAddr) (cmd : UInt32) (info : NSNode inetAddr) : NSDomain inetAddr :=
  { d with datas := d.datas.add (((d.datas.find cmd).getD (NSNodeSet.new cmd)).add info) }

/-- `NSDomain::del(cmd, id)` -/
def NSDomain.del (d : NSDomain inetAddr) (cmd : UInt32) (id : UInt64) : NSDomain inetAddr :=
  match d.datas.find cmd with
  | none => d
  | some ns => if (ns.del id).datas.size = 0 then { d with datas := d.datas.erase cmd }
      else { d with datas := d.datas.add (ns.del id) }

/-! ## What a domain holds -/

section

variable (d : NSDomain inetAddr) (cmd : UInt32)

def NSDomain.entry (id : UInt64) : Option (NSNode inetAddr) := (d.datas.find cmd).bind fun ns => ns.datas.find id

theorem NSDomain.domain_add (info : NSNode inetAddr) : (d.add cmd info).domain = d.domain := rfl

theorem NSDomain.domain_del (id : UInt64) : (d.del cmd id).domain = d.domain := by
  unfold del
  split
  · rfl
  · split <;> rfl

theorem NSDomain.entry_add (info : NSNode inetAddr) (c : UInt32) (id : UInt64) :
    (d.add cmd info).entry c id = if c = cmd ∧ id = info.id then some info else d.entry c id := by
  -- the set that is put back has the command it was looked up with
  have hcmd : ((d.datas.find cmd).getD (NSNodeSet.new cmd)).cmd = cmd := by
    cases hf : d.datas.find cmd with
    | none => rfl
    | some ns => exact key_of_find hf
  have hold : ((d.datas.find cmd).getD (NSNodeSet.new cmd)).datas.find id = d.entry cmd id := by
    unfold entry
    cases hf : d.datas.find cmd with
    | none | some ns => rfl
  unfold entry add NSNodeSet.add
  simp only [find_add]
  by_cases hc : c = cmd
  · subst hc
    rw [if_pos hcmd.symm, bind_some]
    simp only [find_add, true_and]
    rw [hold]
    rfl
  · rw [if_neg (fun h => hc (h.trans hcmd)), if_neg (fun h => hc h.1)]

theorem NSDomain.entry_del (id : UInt64) (c : UInt32) (i : UInt64) :
    (d.del cmd id).entry c i = if c = cmd ∧ i = id then none else d.entry c i := by
  unfold del
  cases hf : d.datas.find cmd with
  | none =>
    by_cases hc : c = cmd ∧ i = id
    · simp [entry, hc.1, hf]
    · rw [if_neg hc]
  | some ns =>
    have hset : (ns.del id).datas.find i = if i = id then none else ns.datas.find i := find_erase ns.datas id i
    have hcmd : (ns.del id).cmd = cmd := show ns.cmd = cmd from key_of_find hf
    dsimp only
    by_cases hc : c = cmd
    · subst hc
      simp only [true_and]
      have hentry : d.entry c i = ns.datas.find i := by simp [entry, hf]
      rw [hentry, ← hset]
      split
      · -- the emptied set is dropped: neither has an entry
        rename_i hsize
        rw [find_of_size_eq_zero hsize i]
        simp [entry, find_erase]
      · simp [entry, find_add, hcmd]
    · split
      · simp [entry, find_erase, hc]
      · simp [entry, find_add, hcmd, hc]

end

/-! ## Domains and their commands -/

/-- an entry of a `std::map<std::string, std::set<uint32_t>>`: a domain and its commands -/
abbrev DomainCmds := String × List UInt32

/-- some entry names the domain and the command -/
def Covers (l : List DomainCmds) (domain : String) (cmd : UInt32) : Prop := ∃ i ∈ l, i.1 = domain ∧ cmd ∈ i.2

instance (l : List DomainCmds) (domain : String) (cmd : UInt32) : Decidable (Covers l domain cmd) :=
  inferInstanceAs (Decidable (∃ i ∈ l, i.1 = domain ∧ cmd ∈ i.2))

@[simp] theorem not_covers_nil (domain : String) (cmd : UInt32) : ¬ Covers [] domain cmd := by simp [Covers]

/-- what a query can see of the registry -/
def entry (ds : NSDomainSet inetAddr) (domain : String) (cmd : UInt32) (id : UInt64) : Option (NSNode inetAddr) :=
  (ds.find domain).bind fun d => d.entry cmd id

variable (ds : NSDomainSet inetAddr) (node : NSNode inetAddr) (id : UInt64) (l : List DomainCmds)

/-- one domain of the loops that add: it is created if it is not there -/
def addDomain (ds : NSDomainSet inetAddr) (i : DomainCmds) : NSDomainSet inetAddr :=
  ds.add (i.2.foldl (fun d c => d.add c node) ((ds.find i.1).getD (new i.1)))

/-- one domain of the loop that deletes -/
def delDomain (ds : NSDomainSet inetAddr) (i : DomainCmds) : NSDomainSet inetAddr :=
  match ds.find i.1 with
  | none => ds
  | some d => ds.add (i.2.foldl (fun d c => d.del c id) d)

def addAll : NSDomainSet inetAddr := l.foldl (addDomain node) ds

def delAll : NSDomainSet inetAddr := l.foldl (delDomain id) ds

theorem domain_foldl {f : NSDomain inetAddr → UInt32 → NSDomain inetAddr} (h : ∀ d c, (f d c).domain = d.domain)
    (cs : List UInt32) (d : NSDomain inetAddr) : (cs.foldl f d).domain = d.domain := by
  induction cs generalizing d with
  | nil => rfl
  | cons c cs ih => rw [List.foldl_cons, ih, h]

theorem entry_foldl_add (cs : List UInt32) (d : NSDomain inetAddr) (c : UInt32) (id : UInt64) :
    (cs.foldl (fun d c => d.add c node) d).entry c id = if c ∈ cs ∧ id = node.id then some node else d.entry c id := by
  refine (foldl_write (fun d c' => d.add c' node) (fun d => d.entry c id) (fun c' => c = c' ∧ id = node.id) (some node)
    (fun d c' => entry_add d c' node c id) cs d).trans ?_
  simp

theorem entry_foldl_del (cs : List UInt32) (d : NSDomain inetAddr) (c : UInt32) (k : UInt64) :
    (cs.foldl (fun d c => d.del c id) d).entry c k = if c ∈ cs ∧ k = id then none else d.entry c k := by
  refine (foldl_write (fun d c' => d.del c' id) (fun d => d.entry c k) (fun c' => c = c' ∧ k = id) none
    (fun d c' => entry_del d c' id c k) cs d).trans ?_
  simp

theorem entry_addDomain (i : DomainCmds) (domain : String) (c : UInt32) (id : UInt64) :
    entry (addDomain node ds i) domain c id =
      if (i.1 = domain ∧ c ∈ i.2) ∧ id = node.id then some node else entry ds domain c id := by
  have hname : ((ds.find i.1).getD (new i.1)).domain = i.1 := by
    cases hf : ds.find i.1 with
    | none => rfl
    | some d => exact key_of_find hf
  have hold : ((ds.find i.1).getD (new i.1)).entry c id = entry ds i.1 c id := by
    unfold entry
    cases hf : ds.find i.1 with
    | none | some d => rfl
  unfold entry addDomain
  rw [find_add, domain_foldl fun d c => domain_add d c node, hname]
  by_cases hd : domain = i.1
  · subst hd
    rw [if_pos rfl, bind_some, entry_foldl_add, hold]
    simp only [true_and]
    rfl
  · rw [if_neg hd, if_neg (fun h => hd h.1.1.symm)]

theorem entry_delDomain (i : DomainCmds) (domain : String) (c : UInt32) (k : UInt64) :
    entry (delDomain id ds i) domain c k = if (i.1 = domain ∧ c ∈ i.2) ∧ k = id then none else entry ds domain c k := by
  unfold delDomain
  cases hf : ds.find i.1 with
  | none =>
    by_cases hd : (i.1 = domain ∧ c ∈ i.2) ∧ k = id
    · rw [if_pos hd, entry, ← hd.1.1, hf, bind_none]
    · rw [if_neg hd]
  | some d =>
    have hname : d.domain = i.1 := key_of_find hf
    unfold entry
    simp only [find_add, domain_foldl fun d c => domain_del d c id, hname]
    by_cases hd : domain = i.1
    · subst hd
      rw [if_pos rfl, bind_some, entry_foldl_del, hf, bind_some]
      simp
    · rw [if_neg hd, if_neg (fun h => hd h.1.1.symm)]

theorem entry_addAll (ds : NSDomainSet inetAddr) (domain : String) (c : UInt32) (id : UInt64) :
    entry (addAll ds node l) domain c id = if Covers l domain c ∧ id = node.id then some node
      else entry ds domain c id := by
  unfold addAll
  rw [foldl_write _ (fun ds => entry ds domain c id) (fun i => (i.1 = domain ∧ c ∈ i.2) ∧ id = node.id) (some node)
    (fun ds i => entry_addDomain ds node i domain c id)]
  refine if_congr ?_ rfl rfl
  simp [Covers, ← and_assoc]

theorem entry_delAll (ds : NSDomainSet inetAddr) (domain : String) (c : UInt32) (k : UInt64) :
    entry (delAll ds id l) domain c k = if Covers l domain c ∧ k = id then none else entry ds domain c k := by
  unfold delAll
  rw [foldl_write _ (fun ds => entry ds domain c k) (fun i => (i.1 = domain ∧ c ∈ i.2) ∧ k = id) none
    (fun ds i => entry_delDomain ds id i domain c k)]
  refine if_congr ?_ rfl rfl
  simp [Covers, ← and_assoc]

end CoServer.NameServer
