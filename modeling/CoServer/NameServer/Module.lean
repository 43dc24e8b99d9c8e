/-
The name server module: registrations, disconnects and queries (`name_server_module.cpp`).

A registration is a list of infos, each a node, a domain and commands, any field of which may be missing.
`handleRegister` checks the infos in order and builds the session's new value from them; `set` compares it with the old
one and writes the differences to the registry. Every handler is one step. A stream is a number; whether it is connected
is what `isConnected` answers when the handler runs.

Results:
- `entry_applyDiff`: the writes of one `set`: a triple that is given up loses its entry, one that is new or has a new
  weight gets the new node; if the old and the new value have one id.
- `built_register`: what `handleRegister` builds from the infos it accepts.
- `handleQuery_lists`: a query lists exactly the entries of its domains.
-/
import CoServer.NameServer.Protocol

namespace CoServer.NameServer

open CoServer.Core List Option KeyMap

variable {inetAddr : String → UInt32}

/-! ## Requests -/

/-- `Node` of a request -/
structure Node where
  ip : Option String
  port : Option UInt32
  weight : Option UInt32
deriving DecidableEq

structure RegisterInfo where
  domain : Option String
  cmds : List UInt32
  node : Option Node
deriving DecidableEq

abbrev RegisterRequest := List RegisterInfo

/-- `std::map<std::string, std::set<uint32_t>>` -/
abbrev Domain2Cmds := KeyMap (Prod.fst : DomainCmds → String)

/-- `_domain2cmds[domain].insert(cmd)` -/
def insertCmd (domain : String) (m : Domain2Cmds) (cmd : UInt32) : Domain2Cmds :=
  let cmds := ((m.find domain).getD (domain, [])).2
  m.add (domain, if cmd ∈ cmds then cmds else cmd :: cmds)

structure NSClientInfo (inetAddr : String → UInt32) where
  node : NSNode inetAddr
  domain2cmds : Domain2Cmds

/-- why a request is refused -/
inductive RegisterError where
  /-- no message can be read from the request -/
  | invalid
  | isNull (attr : String)
  | ipInvalid (ip : String)
  /-- another node than the session's, or than an earlier info's -/
  | otherNode
deriving DecidableEq

/-- one turn of the loop of `handleRegister`; `new` is what the earlier infos built -/
def registerInfo (old new : Option (NSClientInfo inetAddr)) (info : RegisterInfo) :
    Except RegisterError (NSClientInfo inetAddr) :=
  match info.node with
  | none => .error (.isNull "node")
  | some node => match info.domain with
  | none => .error (.isNull "domain")
  | some domain =>
  if info.cmds = [] then .error (.isNull "cmds") else
  match node.ip with
  | none => .error (.isNull "ip")
  | some ip => match node.port with
  | none => .error (.isNull "port")
  | some port => match node.weight with
  | none => .error (.isNull "weight")
  | some weight =>
  -- the constructor takes the port as 16 bits
  let nsNode : NSNode inetAddr := ⟨ip, port.toUInt16, weight⟩
  if nsNode.id >>> 32 = 0 then .error (.ipInvalid ip) else
  if ∃ o ∈ old, o.node.id ≠ nsNode.id then .error .otherNode else
  if ∃ n ∈ new, n.node.id ≠ nsNode.id then .error .otherNode else
  let n := new.getD ⟨nsNode, empty⟩
  .ok { n with domain2cmds := info.cmds.foldl (insertCmd domain) n.domain2cmds }

/-- the loop of `handleRegister` over the infos -/
def registerInfos (old : Option (NSClientInfo inetAddr)) :
    Option (NSClientInfo inetAddr) → RegisterRequest → Except RegisterError (Option (NSClientInfo inetAddr))
  | new, [] => .ok new
  | new, info :: infos =>
    match registerInfo old new info with
    | .error e => .error e
    | .ok n => registerInfos old (some n) infos

/-! ## The module -/

structure NameServerModule (inetAddr : String → UInt32) where
  domains : NSDomainSet inetAddr
  sessions : ℕ → Option (NSClientInfo inetAddr)

/-- what `a` has and `b` has not: `dels` of `diff`, and `news` with the two maps exchanged -/
def missing (a b : Domain2Cmds) : List DomainCmds :=
  a.values.filterMap fun i => match b.find i.1 with
    | none => some i
    | some it =>
      let cmds := i.2.filter fun n => n ∉ it.2
      if cmds = [] then none else some (i.1, cmds)

/-- `comms` of `diff` -/
def common (a b : Domain2Cmds) : List DomainCmds :=
  a.values.filterMap fun i => match b.find i.1 with
    | none => none
    | some it =>
      let cmds := i.2.filter fun n => n ∈ it.2
      if cmds = [] then none else some (i.1, cmds)

structure Diff where
  dels : List DomainCmds
  news : List DomainCmds
  comms : List DomainCmds

def diff (oldValue newValue : Domain2Cmds) : Diff :=
  ⟨missing oldValue newValue, missing newValue oldValue, common oldValue newValue⟩

/-- `old_v` and `new_v` of `set` -/
def cmdsOf (value : Option (NSClientInfo inetAddr)) : Domain2Cmds := (value.map NSClientInfo.domain2cmds).getD empty

/-- the writes of `set`; a null value has no commands, so no loop reaches for its node -/
def applyDiff (ds : NSDomainSet inetAddr) (oldValue newValue : Option (NSClientInfo inetAddr)) : NSDomainSet inetAddr :=
  let d := diff (cmdsOf oldValue) (cmdsOf newValue)
  match oldValue, newValue with
  | none, none => ds
  | some o, none => delAll ds o.node.id d.dels
  | none, some n => addAll ds n.node d.news
  | some o, some n =>
    let ds := addAll (delAll ds o.node.id d.dels) n.node d.news
    if o.node.weight ≠ n.node.weight then addAll ds n.node d.comms else ds

namespace NameServerModule

variable (m : NameServerModule inetAddr)

/-- `set` from the line after the check of the stream on -/
def assign (rs : ℕ) (newValue : Option (NSClientInfo inetAddr)) : NameServerModule inetAddr where
  domains := applyDiff m.domains (m.sessions rs) newValue
  sessions := Function.update m.sessions rs newValue

def set (rs : ℕ) (isConnected : Bool) (newValue : Option (NSClientInfo inetAddr)) : NameServerModule inetAddr :=
  m.assign rs (if isConnected then newValue else none)

/-- `none` is a request that `getAsPB` cannot read -/
def handleRegister (rr : Option RegisterRequest) (stream : ℕ) (isConnected : Bool) :
    Except RegisterError (NameServerModule inetAddr) :=
  match rr with
  | none => .error .invalid
  | some infos =>
    match registerInfos (m.sessions stream) none infos with
    | .error e => .error e
    | .ok newValue => .ok (m.set stream isConnected newValue)

def onDisconnect (stream : ℕ) (isConnected : Bool) : NameServerModule inetAddr := m.set stream isConnected none

end NameServerModule

/-- `NodeInfo` of a response: a domain, a command and the nodes' ips, ports and weights -/
structure NodeInfo (inetAddr : String → UInt32) where
  domain : String
  cmd : UInt32
  nodes : List (NSNode inetAddr)

/-- the infos of the response; a domain asked for twice is found once -/
def NameServerModule.handleQuery (m : NameServerModule inetAddr) (domains : List String) : List (NodeInfo inetAddr) :=
  (domains.dedup.filterMap m.domains.find).flatMap fun d => d.datas.values.map fun ns =>
  ⟨d.domain, ns.cmd, ns.datas.values⟩

/-! ## Maps of domains and commands -/

theorem covers_values (m : Domain2Cmds) (domain : String) (cmd : UInt32) :
    Covers m.values domain cmd ↔ ∃ i, m.find domain = some i ∧ cmd ∈ i.2 := by
  constructor
  · rintro ⟨i, hi, rfl, hcmd⟩
    exact ⟨i, mem_values.1 hi, hcmd⟩
  · rintro ⟨i, hi, hcmd⟩
    obtain rfl := key_of_find hi
    exact ⟨i, mem_values.2 hi, rfl, hcmd⟩

variable (domain : String)

@[simp] theorem not_covers_empty (cmd : UInt32) : ¬ Covers (empty : Domain2Cmds).values domain cmd :=
  not_covers_nil domain cmd

theorem covers_insertCmd (m : Domain2Cmds) (cmd : UInt32) (d : String) (c : UInt32) :
    Covers (insertCmd domain m cmd).values d c ↔ (d = domain ∧ c = cmd) ∨ Covers m.values d c := by
  rw [covers_values, covers_values, insertCmd]
  simp only [find_add]
  by_cases hd : d = domain
  · subst hd
    cases hf : m.find d with
    | none => simp
    | some i =>
      by_cases hc : cmd ∈ i.2
      · -- the command is there already
        have hor : c = cmd ∨ c ∈ i.2 ↔ c ∈ i.2 := or_iff_right_of_imp fun h => h ▸ hc
        simp [hc, hor]
      · simp [hc]
  · simp [hd]

theorem covers_foldl_insertCmd (cmds : List UInt32) (m : Domain2Cmds) (d : String) (c : UInt32) :
    Covers (cmds.foldl (insertCmd domain) m).values d c ↔ (d = domain ∧ c ∈ cmds) ∨ Covers m.values d c := by
  induction cmds generalizing m with
  | nil => simp
  | cons cmd cmds ih =>
    rw [foldl_cons, ih, covers_insertCmd, mem_cons]
    tauto

/-- what is left of a list when each entry loses some of its commands -/
theorem covers_filterMap {g : DomainCmds → Option DomainCmds} {P : String → UInt32 → Prop} (l : List DomainCmds)
    (hkey : ∀ i, ∀ j ∈ g i, j.1 = i.1) (hg : ∀ i c, (∃ j ∈ g i, c ∈ j.2) ↔ c ∈ i.2 ∧ P i.1 c)
    (d : String) (c : UInt32) :
    Covers (l.filterMap g) d c ↔ Covers l d c ∧ P d c := by
  constructor
  · rintro ⟨j, hj, rfl, hc⟩
    obtain ⟨i, hi, hij⟩ := mem_filterMap.1 hj
    obtain ⟨hci, hp⟩ := (hg i c).1 ⟨j, hij, hc⟩
    rw [hkey i j hij]
    exact ⟨⟨i, hi, rfl, hci⟩, hp⟩
  · rintro ⟨⟨i, hi, rfl, hc⟩, hp⟩
    obtain ⟨j, hij, hcj⟩ := (hg i c).2 ⟨hc, hp⟩
    exact ⟨j, mem_filterMap.2 ⟨i, hi, hij⟩, hkey i j hij, hcj⟩

theorem covers_missing (a b : Domain2Cmds) (d : String) (c : UInt32) :
    Covers (missing a b) d c ↔ Covers a.values d c ∧ ¬ Covers b.values d c := by
  rw [covers_values b]
  refine covers_filterMap (P := fun d c => ¬ ∃ i, b.find d = some i ∧ c ∈ i.2) _ (fun i j hij => ?_) (fun i c => ?_) d c
  · grind
  · cases hf : b.find i.1 with
    | none => simp
    | some it => by_cases hnil : i.2.filter (· ∉ it.2) = [] <;> simp_all

theorem covers_common (a b : Domain2Cmds) (d : String) (c : UInt32) :
    Covers (common a b) d c ↔ Covers a.values d c ∧ Covers b.values d c := by
  rw [covers_values b]
  refine covers_filterMap (P := fun d c => ∃ i, b.find d = some i ∧ c ∈ i.2) _ (fun i j hij => ?_) (fun i c => ?_) d c
  · grind
  · cases hf : b.find i.1 with
    | none => simp
    | some it => by_cases hnil : i.2.filter (· ∈ it.2) = [] <;> simp_all

/-! ## What a session's value stands for -/

/-- the value enters the triple of a domain, a command and a node's id -/
def Entered (value : Option (NSClientInfo inetAddr)) (domain : String) (cmd : UInt32) (id : UInt64) : Prop :=
  ∃ v ∈ value, Covers v.domain2cmds.values domain cmd ∧ id = v.node.id

instance (value : Option (NSClientInfo inetAddr)) (domain : String) (cmd : UInt32) (id : UInt64) :
    Decidable (Entered value domain cmd id) :=
  inferInstanceAs (Decidable (∃ v ∈ value, Covers v.domain2cmds.values domain cmd ∧ id = v.node.id))

theorem not_entered_none (cmd : UInt32) (id : UInt64) :
    ¬ Entered (none : Option (NSClientInfo inetAddr)) domain cmd id := by
  simp [Entered]

theorem entered_some (v : NSClientInfo inetAddr) (domain : String) (cmd : UInt32) (id : UInt64) :
    Entered (some v) domain cmd id ↔ Covers v.domain2cmds.values domain cmd ∧ id = v.node.id := by
  simp [Entered]

def Reweighted (oldValue newValue : Option (NSClientInfo inetAddr)) : Prop :=
  ∃ o ∈ oldValue, ∃ n ∈ newValue, o.node.weight ≠ n.node.weight

instance (oldValue newValue : Option (NSClientInfo inetAddr)) : Decidable (Reweighted oldValue newValue) :=
  inferInstanceAs (Decidable (∃ o ∈ oldValue, ∃ n ∈ newValue, o.node.weight ≠ n.node.weight))

theorem entry_applyDiff (ds : NSDomainSet inetAddr) {oldValue newValue : Option (NSClientInfo inetAddr)}
    (hid : ∀ o ∈ oldValue, ∀ n ∈ newValue, o.node.id = n.node.id) (d : String) (c : UInt32) (id : UInt64) :
    entry (applyDiff ds oldValue newValue) d c id =
      if Entered newValue d c id then
        if Entered oldValue d c id ∧ ¬ Reweighted oldValue newValue then entry ds d c id
          else newValue.map NSClientInfo.node
      else if Entered oldValue d c id then none else entry ds d c id := by
  cases oldValue with
  | none =>
    cases newValue with
    | none => simp [applyDiff, not_entered_none]
    | some n => simp [applyDiff, diff, cmdsOf, entry_addAll, covers_missing, not_entered_none, entered_some]
  | some o =>
    cases newValue with
    | none => simp [applyDiff, diff, cmdsOf, entry_delAll, covers_missing, not_entered_none, entered_some]
    | some n =>
      have hon : o.node.id = n.node.id := hid o rfl n rfl
      by_cases hw : o.node.weight = n.node.weight
      · have hre : ¬ Reweighted (some o) (some n) := by simp [Reweighted, hw]
        simp only [applyDiff, diff, cmdsOf, hw, ne_eq, not_true_eq_false, if_false, map_some, getD_some, entry_addAll,
          entry_delAll, covers_missing, entered_some, hre, hon]
        by_cases hn : Covers n.domain2cmds.values d c ∧ id = n.node.id
        · simp [hn]
        · by_cases hi : id = n.node.id
          · simp_all
          · simp [hi]
      · have hre : Reweighted (some o) (some n) := by simp [Reweighted, hw]
        simp only [applyDiff, diff, cmdsOf, hw, ne_eq, not_false_eq_true, if_true, map_some, getD_some, entry_addAll,
          entry_delAll, covers_missing, covers_common, entered_some, hre, hon]
        by_cases hn : Covers n.domain2cmds.values d c ∧ id = n.node.id
        · by_cases ho : Covers o.domain2cmds.values d c
          all_goals simp [hn, ho]
        · by_cases hi : id = n.node.id
          · simp_all
          · simp [hi]

/-- the info names the triple -/
def RegisterInfo.Names (inetAddr : String → UInt32) (info : RegisterInfo) (domain : String) (cmd : UInt32)
    (id : UInt64) : Prop :=
  info.domain = some domain ∧ cmd ∈ info.cmds ∧
    ∃ node ∈ info.node, ∃ ip ∈ node.ip, ∃ port ∈ node.port, id = getID inetAddr ip port.toUInt16

/-- the registration contains the triple -/
def Contains (inetAddr : String → UInt32) (request : RegisterRequest) (domain : String) (cmd : UInt32)
    (id : UInt64) : Prop :=
  ∃ info ∈ request, info.Names inetAddr domain cmd id

def HasWeight (request : RegisterRequest) (weight : UInt32) : Prop :=
  ∃ info ∈ request, ∃ node ∈ info.node, node.weight = some weight

/-- a session's value built from a registration enters its triples, with one of its weights -/
structure Built (request : RegisterRequest) (value : Option (NSClientInfo inetAddr)) : Prop where
  entered : ∀ d c id, Contains inetAddr request d c id ↔ Entered value d c id
  weight : ∀ v ∈ value, HasWeight request v.node.weight

theorem built_nil : Built [] (none : Option (NSClientInfo inetAddr)) where
  entered d c id := by simp [Contains, not_entered_none]
  weight v hv := by cases hv

variable {old : Option (NSClientInfo inetAddr)}

theorem registerInfo_ok {new : Option (NSClientInfo inetAddr)} {info : RegisterInfo} {n : NSClientInfo inetAddr}
    (h : registerInfo old new info = .ok n) :
    ∃ domain, ∃ node : NSNode inetAddr,
      (∀ d c id, info.Names inetAddr d c id ↔ (d = domain ∧ c ∈ info.cmds) ∧ id = node.id) ∧
      HasWeight [info] node.weight ∧ (∀ o ∈ old, o.node.id = node.id) ∧ (∀ m ∈ new, m.node.id = node.id) ∧
      n = { node := (new.getD ⟨node, empty⟩).node
            domain2cmds := info.cmds.foldl (insertCmd domain) (new.getD ⟨node, empty⟩).domain2cmds } := by
  obtain ⟨domain, cmds, node⟩ := info
  unfold registerInfo at h
  cases node with
  | none => cases h
  | some node =>
    obtain ⟨ip, port, weight⟩ := node
    cases domain with
    | none => cases h
    | some domain =>
      dsimp only at h
      split at h
      · cases h
      cases ip with
      | none => cases h
      | some ip =>
        cases port with
        | none => cases h
        | some port =>
          cases weight with
          | none => cases h
          | some weight =>
            dsimp only at h
            split at h
            · cases h
            split at h
            · cases h
            split at h
            · cases h
            rename_i hold hnew
            refine ⟨domain, ⟨ip, port.toUInt16, weight⟩, ?_, ?_, ?_, ?_, (Except.ok.inj h).symm⟩
            · simp [RegisterInfo.Names, NSNode.id, eq_comm, and_assoc]
            · simp [HasWeight]
            · intro o ho
              by_contra hne
              exact hold ⟨o, ho, hne⟩
            · intro m hm
              by_contra hne
              exact hnew ⟨m, hm, hne⟩

theorem contains_snoc (request : RegisterRequest) (info : RegisterInfo) (d : String) (c : UInt32) (id : UInt64) :
    Contains inetAddr (request ++ [info]) d c id ↔ Contains inetAddr request d c id ∨ info.Names inetAddr d c id := by
  simp [Contains]

theorem hasWeight_append {a b : RegisterRequest} {w : UInt32} : HasWeight (a ++ b) w ↔
    HasWeight a w ∨ HasWeight b w := by
  simp [HasWeight, or_and_right, exists_or]

theorem built_registerInfo {new : Option (NSClientInfo inetAddr)} {request : RegisterRequest} {info : RegisterInfo}
    {n : NSClientInfo inetAddr} (hb : Built request new) (h : registerInfo old new info = .ok n) :
    Built (request ++ [info]) (some n) ∧ ∀ o ∈ old, o.node.id = n.node.id := by
  obtain ⟨domain, node, hnames, hweight, hold, hnew, rfl⟩ := registerInfo_ok h
  have hid : (new.getD ⟨node, empty⟩).node.id = node.id := by
    cases new with
    | none => rfl
    | some m => exact hnew m rfl
  have hentered : ∀ d c id, Entered new d c id ↔
      Covers (new.getD ⟨node, empty⟩).domain2cmds.values d c ∧ id = node.id := by
    intro d c id
    cases new with
    | none => simp [not_entered_none]
    | some m => rw [entered_some, hnew m rfl, getD_some]
  refine ⟨⟨?_, ?_⟩, ?_⟩
  · intro d c id
    rw [contains_snoc, hb.entered, hentered, hnames, entered_some, covers_foldl_insertCmd, hid]
    tauto
  · intro v hv
    obtain rfl := some.inj hv
    rw [hasWeight_append]
    cases new with
    | none => exact Or.inr hweight
    | some m => exact Or.inl (hb.weight m rfl)
  · intro o ho
    exact (hold o ho).trans hid.symm

theorem built_registerInfos (infos : RegisterRequest) {new value : Option (NSClientInfo inetAddr)}
    {request : RegisterRequest} (hb : Built request new) (hid : ∀ o ∈ old, ∀ n ∈ new, o.node.id = n.node.id)
    (h : registerInfos old new infos = .ok value) :
    Built (request ++ infos) value ∧ ∀ o ∈ old, ∀ n ∈ value, o.node.id = n.node.id := by
  induction infos generalizing new request with
  | nil =>
    cases h
    exact ⟨by rwa [append_nil], hid⟩
  | cons info infos ih =>
    unfold registerInfos at h
    split at h
    · cases h
    rename_i n hn
    obtain ⟨hbn, hold⟩ := built_registerInfo hb hn
    have hrest := ih hbn (fun o ho m hm => by obtain rfl := some.inj hm; exact hold o ho) h
    rwa [append_assoc] at hrest

theorem built_register {value : Option (NSClientInfo inetAddr)} {infos : RegisterRequest}
    (h : registerInfos old none infos = .ok value) :
    Built infos value ∧ ∀ o ∈ old, ∀ n ∈ value, o.node.id = n.node.id :=
  built_registerInfos infos built_nil (fun _ _ _ hn => by cases hn) h

/-! ## Queries -/

/-- the response lists the node with that id and weight under the domain and the command -/
def Lists (infos : List (NodeInfo inetAddr)) (domain : String) (cmd : UInt32) (id : UInt64) (weight : UInt32) : Prop :=
  ∃ info ∈ infos, info.domain = domain ∧ info.cmd = cmd ∧ ∃ n ∈ info.nodes, n.id = id ∧ n.weight = weight

theorem handleQuery_lists (m : NameServerModule inetAddr) {domains : List String} {domain : String}
    (hd : domain ∈ domains) (cmd : UInt32) (id : UInt64) (weight : UInt32) :
    Lists (m.handleQuery domains) domain cmd id weight ↔ ∃ n ∈ entry m.domains domain cmd id, n.weight = weight := by
  unfold entry NSDomain.entry
  constructor
  · rintro ⟨info, hinfo, rfl, rfl, n, hn, rfl, rfl⟩
    obtain ⟨d, hdom, hinfo⟩ := mem_flatMap.1 hinfo
    obtain ⟨domain', -, hfind⟩ := mem_filterMap.1 hdom
    obtain ⟨ns, hns, rfl⟩ := mem_map.1 hinfo
    obtain rfl := key_of_find hfind
    exact ⟨n, by simp [hfind, mem_values.1 hns, mem_values.1 hn], rfl⟩
  · rintro ⟨n, hn, rfl⟩
    obtain ⟨d, hfind, hn⟩ := bind_eq_some_iff.1 hn
    obtain ⟨ns, hns, hn⟩ := bind_eq_some_iff.1 hn
    have hdomain : d.domain = domain := key_of_find hfind
    have hcmd : ns.cmd = cmd := key_of_find hns
    refine ⟨⟨d.domain, ns.cmd, ns.datas.values⟩, ?_, hdomain, hcmd, n, ?_, key_of_find hn, rfl⟩
    · refine mem_flatMap.2 ⟨d, mem_filterMap.2 ⟨domain, mem_dedup.2 hd, hfind⟩, mem_map.2 ⟨ns, ?_, rfl⟩⟩
      exact mem_of_find?_eq_some hns
    · exact mem_of_find?_eq_some hn

end CoServer.NameServer
