import CoroutineScheduler.Lib.OrderedMap

/-!
# Discovery and balancer

`ZKServiceDiscovery::getChildren` and `SDLoadBalance::onServiceChange` for one domain and one service,
with any number of runs. The sections under a lock are one step each: the swap of `m_datas`, the
readings of `m_types` and of the balancers in `get`, the store of a new `LoadBalance`, and `update`.
What is between them is local to a run. A run whose path or whose query fails returns before the
first of them, and has no step here.
-/

namespace CoroutineScheduler.Streams

/-- `std::unordered_map` with ids as keys. -/
abbrev IdMap (β : Type) := OrderedMap (id : UInt64 → UInt64) β

/-- `ServiceItemInfo`. -/
structure ServiceItemInfo where
  id : UInt64
  port : UInt16
  ip : List UInt8
  data : List UInt8
  deriving DecidableEq, Repr

/-- `ILoadBalance::Type`. -/
inductive BalanceType
  | roundRobin
  | weight
  | fair
  deriving DecidableEq, Repr

/-- The address of a `SocketStream`. -/
abbrev StreamPtr := ℕ

/-- `LoadBalanceItem`; `fair` is for a `FairLoadBalanceItem`. -/
structure LoadBalanceItem where
  fair : Bool
  id : UInt64
  stream : StreamPtr
  weight : Int32
  deriving DecidableEq, Repr

/-- `LoadBalance`; `weighted` is for a `WeightLoadBalance`, else it is a `RoundRobinLoadBalance`. -/
structure LoadBalance where
  weighted : Bool := true
  datas : IdMap LoadBalanceItem := ∅

/-- `createLoadBalance`. -/
def createLoadBalance : BalanceType → LoadBalance
  | .roundRobin => { weighted := false }
  | .weight | .fair => { weighted := true }

/-- `createLoadBalanceItem`, with what `onServiceChange` sets. -/
def createLoadBalanceItem (type : BalanceType) (id : UInt64) (stream : StreamPtr) :
    LoadBalanceItem :=
  ⟨type = .fair, id, stream, 10000⟩

/-- The first loop of `update`: the items that are there are taken out, and kept to be closed. -/
def delLoop (datas : IdMap LoadBalanceItem) :
    List UInt64 → IdMap LoadBalanceItem × List LoadBalanceItem
  | [] => (datas, [])
  | i :: dels =>
    match datas.find i with
    | some item => let r := delLoop (datas.erase i) dels; (r.1, item :: r.2)
    | none => delLoop datas dels

/-- `LoadBalance::update`, with the items for the keys of `dels` that were there. -/
def LoadBalance.update (lb : LoadBalance) (adds : List (UInt64 × LoadBalanceItem))
    (dels : List UInt64) : LoadBalance × List LoadBalanceItem :=
  let r := delLoop lb.datas dels
  ({ lb with datas := adds.foldl (fun m e => m.set e.1 e.2) r.1 }, r.2)

/-- The `infos` of `getChildren`, from what `ServiceItemInfo::Create` makes of the children. -/
def infosOf (vals : List (Option ServiceItemInfo)) : IdMap ServiceItemInfo :=
  vals.foldl (fun m val => match val with | some info => m.set info.id info | none => m) ∅

/-- The keys of `del_infos`. -/
def delIds (old new : IdMap ServiceItemInfo) : List UInt64 :=
  (old.entries.filter fun e => (new.find e.1).isNone).map Prod.fst

/-- `add_values`. -/
def addValues (old new : IdMap ServiceItemInfo) : List (UInt64 × ServiceItemInfo) :=
  new.entries.filter fun e => (old.find e.1).isNone

/-- `add_infos`; `cb` is `m_cb`. -/
def addInfos (cb : ServiceItemInfo → Option StreamPtr) (type : BalanceType)
    (old new : IdMap ServiceItemInfo) : List (UInt64 × LoadBalanceItem) :=
  (addValues old new).filterMap fun e =>
    (cb e.2).map fun stream => (e.1, createLoadBalanceItem type e.1 stream)

/-- The address of a `LoadBalance`. -/
abbrev BalancePtr := ℕ

/-- The place in `onServiceChange`: in front of `getType`, in `get` in front of the look-up, in front of
the `getType` for a new `LoadBalance`, and in front of its store, and in front of `update`. -/
inductive ChangePc
  | type
  | find (type : BalanceType)
  | create (type : BalanceType)
  | store (type : BalanceType) (lb : BalancePtr)
  | update (type : BalanceType) (lb : BalancePtr)
  deriving DecidableEq

/-- The place of a run: outside, in front of the swap, in `onServiceChange`, where `turn` is the number
of swaps before its own, and in front of the closing of the items that are gone. -/
inductive RunPc
  | idle
  | swap (infos : IdMap ServiceItemInfo)
  | change (turn : ℕ) (old new : IdMap ServiceItemInfo) (pc : ChangePc)
  | close (items : List LoadBalanceItem)
  deriving DecidableEq

structure Discovery (T : Type) where
  /-- `m_datas` of the discovery. -/
  datas : IdMap ServiceItemInfo
  /-- `m_types`. -/
  type : Option BalanceType
  heap : BalancePtr → LoadBalance
  /-- Smaller addresses are in use. -/
  created : BalancePtr
  /-- `m_datas` of the balancer. -/
  balance : Option BalancePtr
  pc : T → RunPc
  /-- How many swaps there were. -/
  turns : ℕ
  /-- The streams that were closed. -/
  closed : List StreamPtr

namespace Discovery

/-- No run has begun. -/
def start {T : Type} (datas : IdMap ServiceItemInfo) (type : Option BalanceType)
    (lb : Option LoadBalance) : Discovery T :=
  ⟨datas, type, fun _ => lb.getD {}, 1, lb.map fun _ => 0, fun _ => .idle, 0, []⟩

/-- Whether the `LoadBalance` of the service holds an id. -/
def holds {T : Type} (s : Discovery T) (i : UInt64) : Bool :=
  match s.balance with
  | some lb => ((s.heap lb).datas.find i).isSome
  | none => false

/-- The ids that the `LoadBalance` holds are those of `m_datas`. -/
def Agrees {T : Type} (s : Discovery T) : Prop := ∀ i, s.holds i = (s.datas.find i).isSome

/-- `getType`: the default is `FAIR`. -/
def getType {T : Type} (s : Discovery T) : BalanceType := s.type.getD .fair

variable {T : Type} [DecidableEq T]

def goto (s : Discovery T) (t : T) (pc : RunPc) : Discovery T :=
  { s with pc := Function.update s.pc t pc }

/-- A step of `onServiceChange`; `cb` is `m_cb` as the run with a turn finds it. -/
def changeStep (cb : ℕ → ServiceItemInfo → Option StreamPtr) (s : Discovery T) (t : T) (turn : ℕ)
    (old new : IdMap ServiceItemInfo) : ChangePc → Discovery T
  | .type => s.goto t (.change turn old new (.find s.getType))
  | .find type =>
    match s.balance with
    | some lb => s.goto t (.change turn old new (.update type lb))
    | none => s.goto t (.change turn old new (.create type))
  | .create type =>
    { s.goto t (.change turn old new (.store type s.created)) with
      heap := Function.update s.heap s.created (createLoadBalance s.getType)
      created := s.created + 1 }
  | .store type lb =>
    { s.goto t (.change turn old new (.update type lb)) with balance := some lb }
  | .update type lb =>
    let r := (s.heap lb).update (addInfos (cb turn) type old new) (delIds old new)
    { s.goto t (.close r.2) with heap := Function.update s.heap lb r.1 }

/-- A run begins with what it has read, or takes its next step; `initConf` stores `m_types`. -/
inductive Label (T : Type)
  | getChildren (t : T) (vals : List (Option ServiceItemInfo))
  | next (t : T)
  | initConf (type : Option BalanceType)

def step (cb : ℕ → ServiceItemInfo → Option StreamPtr) (s : Discovery T) :
    Label T → Option (Discovery T)
  | .getChildren t vals =>
    match s.pc t with
    | .idle => some (s.goto t (.swap (infosOf vals)))
    | _ => none
  | .next t =>
    match s.pc t with
    | .idle => none
    | .swap infos =>
      some { s.goto t (.change s.turns s.datas infos .type) with
        datas := infos
        turns := s.turns + 1 }
    | .change turn old new pc => some (s.changeStep cb t turn old new pc)
    | .close items => some { s.goto t .idle with closed := s.closed ++ items.map (·.stream) }
  | .initConf type => some { s with type := type }

end Discovery

/-! ## The maps -/

section
variable {β : Type} {m : IdMap β} {i j : UInt64}

theorem find_set_isSome (v : β) : ((m.set j v).find i).isSome = (i = j || (m.find i).isSome) := by
  simp only [OrderedMap.find, OrderedMap.entry_set, Option.isSome_map, id_eq]
  by_cases h : i = j <;> simp [h]

theorem find_erase_isSome : ((m.erase j).find i).isSome = (i ≠ j && (m.find i).isSome) := by
  simp only [OrderedMap.find, OrderedMap.entry_erase, Option.isSome_map, id_eq]
  by_cases h : i = j <;> simp [h]

theorem find_isSome_iff : (m.find i).isSome ↔ ∃ v, (i, v) ∈ m.entries := by
  simp [OrderedMap.find, OrderedMap.entry, OrderedMap.first]

theorem find_foldl_set (l : List (UInt64 × β)) :
    ((l.foldl (fun m e => m.set e.1 e.2) m).find i).isSome =
      (i ∈ l.map Prod.fst || (m.find i).isSome) := by
  induction l generalizing m with
  | nil => simp
  | cons e l ih =>
    rw [List.foldl_cons, ih, find_set_isSome, List.map_cons]
    simp only [List.mem_cons, Bool.decide_or, Bool.or_assoc, Bool.or_left_comm]

end

theorem find_delLoop (datas : IdMap LoadBalanceItem) (dels : List UInt64) (i : UInt64) :
    ((delLoop datas dels).1.find i).isSome = (i ∉ dels && (datas.find i).isSome) := by
  induction dels generalizing datas with
  | nil => simp [delLoop]
  | cons j dels ih =>
    rw [delLoop]
    split
    case h_1 item hitem =>
      rw [ih, find_erase_isSome]
      by_cases h : i = j <;> simp [h]
    case h_2 hnone =>
      rw [ih]
      by_cases h : i = j
      · simp [h, hnone]
      · simp [h]

theorem mem_delIds {old new : IdMap ServiceItemInfo} {i : UInt64} :
    i ∈ delIds old new ↔ (old.find i).isSome ∧ (new.find i).isNone := by
  rw [find_isSome_iff]
  simp [delIds]

theorem mem_addValues {old new : IdMap ServiceItemInfo} {i : UInt64} :
    i ∈ (addValues old new).map Prod.fst ↔ (new.find i).isSome ∧ (old.find i).isNone := by
  rw [find_isSome_iff]
  simp [addValues]

/-- The ids of the differences of a run. -/
def changed (old new : IdMap ServiceItemInfo) : List UInt64 :=
  delIds old new ++ (addValues old new).map Prod.fst

theorem mem_changed {old new : IdMap ServiceItemInfo} {i : UInt64} :
    i ∈ changed old new ↔ (new.find i).isSome ≠ (old.find i).isSome := by
  rw [changed, List.mem_append, mem_delIds, mem_addValues]
  cases (old.find i) <;> cases (new.find i) <;> simp

theorem map_addInfos {cb : ServiceItemInfo → Option StreamPtr} (hcb : ∀ info, (cb info).isSome)
    (type : BalanceType) (old new : IdMap ServiceItemInfo) :
    (addInfos cb type old new).map Prod.fst = (addValues old new).map Prod.fst := by
  rw [addInfos]
  induction addValues old new with
  | nil => rfl
  | cons e es ih =>
    obtain ⟨stream, hstream⟩ := Option.isSome_iff_exists.1 (hcb e.2)
    rw [List.filterMap_cons, hstream, List.map_cons, ← ih]
    rfl

/-- With a stream for every item, `update` brings in the ids that are new and takes out those that are
gone; the others it leaves. -/
theorem find_update {cb : ServiceItemInfo → Option StreamPtr} (hcb : ∀ info, (cb info).isSome)
    (type : BalanceType) (old new : IdMap ServiceItemInfo) (lb : LoadBalance) (i : UInt64) :
    ((lb.update (addInfos cb type old new) (delIds old new)).1.datas.find i).isSome =
      if (new.find i).isSome = (old.find i).isSome then (lb.datas.find i).isSome
      else (new.find i).isSome := by
  rw [LoadBalance.update]
  simp only [find_foldl_set, find_delLoop, map_addInfos hcb, mem_addValues, mem_delIds]
  cases (old.find i) <;> cases (new.find i) <;> simp

end CoroutineScheduler.Streams
