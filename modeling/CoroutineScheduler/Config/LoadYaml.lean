import CoroutineScheduler.Config.Yaml
import CoroutineScheduler.Http.Request

/-!
# Loading a YAML document into the configuration

`ListAllMember`, `Config::LoadFromYaml` and the check of names in `Config::Lookup`. A name is made of
the keys on the way to a node; the list that `ListAllMember` checks it against has a space where the
one of `Lookup` has a `9`, and the name is put in lower case only behind this check. The keys on the
way are kept beside the name, and `ss << node` is a parameter.

1. `listAllMember_eq`: which nodes are listed, and under which name.
2. `mem_loadFromYaml`: the calls of `fromString`.
3. `loadsRight_iff`: when every node that spells the name of an item is loaded into it, and nothing
   else.
-/

namespace CoroutineScheduler.Config

open Http (ascii tolower)
open Yaml

/-! ## Names -/

/-- The characters that `Config::Lookup` takes. -/
def lookupChars : List UInt8 := ascii "abcdefghijklmnopqrstuvwxyz._0123456789"

/-- The characters that `ListAllMember` takes. -/
def memberChars : List UInt8 := ascii "abcdefghijklmnopqrstuvwxyz._012345678 "

/-- `name.find_first_not_of(chars) == npos`. -/
def onlyOf (chars name : List UInt8) : Bool := name.all (chars.contains ·)

/-- `GetDatas()`: the names of the items. -/
structure Datas where
  names : List (List UInt8)
  valid : ∀ name ∈ names, onlyOf lookupChars name = true

/-- `Config::Lookup` with a default value, `none` where it throws `invalid_argument`. -/
def Datas.lookup (d : Datas) (name : List UInt8) : Option Datas :=
  if name ∈ d.names then some d
  else if h : onlyOf lookupChars name then
    some ⟨name :: d.names, List.forall_mem_cons.2 ⟨h, d.valid⟩⟩
  else none

theorem Datas.lookup_isSome (d : Datas) (name : List UInt8) :
    (d.lookup name).isSome = onlyOf lookupChars name := by
  unfold Datas.lookup
  split_ifs with hmem hall
  · exact (d.valid name hmem).symm
  · exact hall.symm
  · exact ((Bool.not_eq_true _).mp hall).symm

/-! ## The loops -/

/-- The name below a name. -/
def subName (name key : List UInt8) : List UInt8 := if name = [] then key else name ++ 46 :: key

mutual

/-- `ListAllMember`: the nodes with their names, and with the keys on the way. -/
def listAllMember (path : List (List UInt8)) (name : List UInt8) :
    Yaml → List (List (List UInt8) × List UInt8 × Yaml)
  | .null => if onlyOf memberChars name then [(path, name, .null)] else []
  | .scalar text => if onlyOf memberChars name then [(path, name, .scalar text)] else []
  | .seq items => if onlyOf memberChars name then [(path, name, .seq items)] else []
  | .map pairs =>
    if onlyOf memberChars name then (path, name, .map pairs) :: listPairs path name pairs else []

/-- The loop over the pairs of a map. -/
def listPairs (path : List (List UInt8)) (name : List UInt8) :
    List (List UInt8 × Yaml) → List (List (List UInt8) × List UInt8 × Yaml)
  | [] => []
  | (key, node) :: pairs =>
    listAllMember (path ++ [key]) (subName name key) node ++ listPairs path name pairs

end

/-- A call of `fromString`: the keys on the way to the node, the item, and the text. -/
structure FromString where
  path : List (List UInt8)
  name : List UInt8
  text : List UInt8
  deriving DecidableEq, Repr

section
variable (emit : Yaml → List UInt8) (d : Datas)

/-- The text of a node: `Scalar()`, or what is printed. -/
def nodeText : Yaml → List UInt8
  | .scalar text => text
  | node => emit node

/-- `Config::LoadFromYaml`: its calls of `fromString`. -/
def loadFromYaml (root : Yaml) : List FromString :=
  (listAllMember [] [] root).filterMap fun (path, key, node) =>
    if key = [] then none
    else
      let key := key.map tolower
      if key ∈ d.names then some ⟨path, key, nodeText emit node⟩ else none

end

/-! ## Names and keys -/

/-- The name that `ListAllMember` makes of some keys. -/
def nameOf (path : List (List UInt8)) : List UInt8 := path.foldl subName []

section
variable {path : List (List UInt8)} {key name : List UInt8}

theorem nameOf_concat (path : List (List UInt8)) (key : List UInt8) :
    nameOf (path ++ [key]) = subName (nameOf path) key := by
  unfold nameOf
  rw [List.foldl_append]
  rfl

theorem foldl_subName (h : name ≠ []) (path : List (List UInt8)) :
    path.foldl subName name = name ++ path.flatMap (46 :: ·) := by
  induction path generalizing name with
  | nil => simp
  | cons key path ih =>
    rw [List.foldl_cons, subName, if_neg h, ih (by simp), List.flatMap_cons, List.append_assoc]

/-- Empty keys in front are dropped. -/
theorem nameOf_nil_cons (path : List (List UInt8)) : nameOf ([] :: path) = nameOf path := rfl

theorem nameOf_cons (h : key ≠ []) (path : List (List UInt8)) :
    nameOf (key :: path) = dotted (key :: path) :=
  foldl_subName h path

theorem nameOf_eq (path : List (List UInt8)) :
    nameOf path = dotted (path.dropWhile (· = [])) := by
  induction path with
  | nil => rfl
  | cons key path ih =>
    rw [List.dropWhile_cons]
    split_ifs with h
    · rw [of_decide_eq_true h, nameOf_nil_cons, ih]
    · exact nameOf_cons (by simpa using h) path

theorem length_nameOf_le (path : List (List UInt8)) :
    (nameOf path).length ≤ (dotted path).length := by
  induction path with
  | nil => exact le_rfl
  | cons key path ih =>
    by_cases h : key = []
    · subst h
      refine ih.trans ?_
      cases path with
      | nil => exact le_rfl
      | cons k path => simp [dotted]
    · rw [nameOf_cons h]

/-- The name of a node holds the name of every node above it. -/
theorem prefix_nameOf {path path' : List (List UInt8)} (h : path <+: path') :
    nameOf path <+: nameOf path' := by
  obtain ⟨keys, rfl⟩ := h
  induction keys using List.reverseRecOn with
  | nil => rw [List.append_nil]
  | append_singleton keys key ih =>
    rw [← List.append_assoc, nameOf_concat]
    refine ih.trans ?_
    unfold subName
    split_ifs with h
    · rw [h]
      exact List.nil_prefix
    · exact List.prefix_append _ _

theorem onlyOf_iff {chars : List UInt8} : onlyOf chars name = true ↔ ∀ c ∈ name, c ∈ chars := by
  unfold onlyOf
  simp [List.all_eq_true]

end

/-! ## What is listed -/

/-- A node with its name, unless the name is refused. -/
def visit (o : List (List UInt8) × Yaml) : Option (List (List UInt8) × List UInt8 × Yaml) :=
  if onlyOf memberChars (nameOf o.1) then some (o.1, nameOf o.1, o.2) else none

/-- Nothing below a refused name is listed. -/
theorem visit_refused {path : List (List UInt8)} (h : ¬ onlyOf memberChars (nameOf path) = true)
    {os : List (List (List UInt8) × Yaml)} (hos : ∀ o ∈ os, path <+: o.1) :
    os.filterMap visit = [] := by
  refine List.filterMap_eq_nil_iff.2 fun o ho => if_neg fun hall => h ?_
  exact onlyOf_iff.2 fun c hc => onlyOf_iff.1 hall c ((prefix_nameOf (hos o ho)).subset hc)

mutual

theorem listAllMember_eq : ∀ (node : Yaml) (path : List (List UInt8)),
    listAllMember path (nameOf path) node = (nodesFrom path node).filterMap visit
  | .null, path | .scalar _, path | .seq _, path => by
    rw [listAllMember, nodesFrom, List.filterMap_cons, visit]
    split_ifs <;> rfl
  | .map pairs, path => by
    rw [listAllMember]
    split_ifs with h
    · rw [nodesFrom, List.filterMap_cons, visit, if_pos h, listPairs_eq pairs path]
    · exact (visit_refused h fun o ho => prefix_of_mem_nodesFrom ho).symm

theorem listPairs_eq : ∀ (pairs : List (List UInt8 × Yaml)) (path : List (List UInt8)),
    listPairs path (nameOf path) pairs = (pairsFrom path pairs).filterMap visit
  | [], path => by
    rw [listPairs, pairsFrom]
    rfl
  | (key, node) :: pairs, path => by
    rw [listPairs, pairsFrom, List.filterMap_append, ← nameOf_concat, listAllMember_eq node,
      listPairs_eq pairs]

end

section
variable {emit : Yaml → List UInt8} {d : Datas} {root : Yaml}

/-- The calls of `fromString`: for the nodes whose name passes the check and is that of an item. -/
theorem mem_loadFromYaml {call : FromString} :
    call ∈ loadFromYaml emit d root ↔ ∃ o ∈ nodes root, onlyOf memberChars (nameOf o.1) = true ∧
      nameOf o.1 ≠ [] ∧ (nameOf o.1).map tolower ∈ d.names ∧
      call = ⟨o.1, (nameOf o.1).map tolower, nodeText emit o.2⟩ := by
  have hlist : listAllMember [] [] root = (nodes root).filterMap visit := listAllMember_eq root []
  unfold loadFromYaml
  rw [hlist, List.mem_filterMap]
  simp only [List.mem_filterMap, visit]
  constructor
  · rintro ⟨⟨path, name, node⟩, ⟨o, ho, hvisit⟩, hcall⟩
    split_ifs at hvisit with hall
    cases hvisit
    split_ifs at hcall with hne hmem
    cases hcall
    exact ⟨o, ho, hall, hne, hmem, rfl⟩
  · rintro ⟨o, ho, hall, hne, hmem, rfl⟩
    refine ⟨_, ⟨o, ho, if_pos hall⟩, ?_⟩
    rw [if_neg hne, if_pos hmem]

end

/-! ## When it loads what it should -/

section
variable (emit : Yaml → List UInt8) (d : Datas) (root : Yaml)

/-- Every node whose dotted keys spell the name of an item, up to letter case, is loaded into it;
and no item is touched whose name the document does not spell. -/
structure LoadsRight : Prop where
  reached : ∀ o ∈ nodes root, o.1 ≠ [] → (dotted o.1).map tolower ∈ d.names →
    ⟨o.1, (dotted o.1).map tolower, nodeText emit o.2⟩ ∈ loadFromYaml emit d root
  touched : ∀ call ∈ loadFromYaml emit d root, ∃ o ∈ nodes root, o.1 ≠ [] ∧
    (dotted o.1).map tolower = call.name

/-- The keys that spell an item begin with a key that is not empty, and hold neither a `9` nor an
upper-case letter. -/
def PlainKeys : Prop :=
  ∀ o ∈ nodes root, o.1 ≠ [] → (dotted o.1).map tolower ∈ d.names →
    o.1.head? ≠ some [] ∧ ∀ c ∈ dotted o.1, c ≠ 57 ∧ ¬ (65 ≤ c ∧ c ≤ 90)

/-- Where empty keys stand in front of the name of an item without a `9`, the name is spelled
elsewhere. -/
def NoStray : Prop :=
  ∀ o ∈ nodes root, o.1.head? = some [] →
    dotted (o.1.dropWhile (· = [])) ≠ [] → dotted (o.1.dropWhile (· = [])) ∈ d.names →
    57 ∉ dotted (o.1.dropWhile (· = [])) →
    ∃ o' ∈ nodes root, o'.1 ≠ [] ∧
      (dotted o'.1).map tolower = dotted (o.1.dropWhile (· = []))

end

theorem memberChars_eq : memberChars = lookupChars.filter (· ≠ 57) ++ [32] := by decide +kernel

theorem lookupChars_facts {c : UInt8} (h : c ∈ lookupChars) : ¬ (65 ≤ c ∧ c ≤ 90) ∧ c ≠ 32 := by
  have hall : lookupChars.all (fun c => decide (¬ (65 ≤ c ∧ c ≤ 90) ∧ c ≠ 32)) = true := by decide
  exact of_decide_eq_true (List.all_eq_true.1 hall c h)

theorem tolower_of_not_upper {c : UInt8} (h : ¬ (65 ≤ c ∧ c ≤ 90)) : tolower c = c := if_neg h

theorem map_tolower {name : List UInt8} (h : ∀ c ∈ name, ¬ (65 ≤ c ∧ c ≤ 90)) :
    name.map tolower = name :=
  (List.map_congr_left fun c hc => tolower_of_not_upper (h c hc)).trans (List.map_id' name)

/-- Which spellings of a name pass the check of `ListAllMember`. -/
theorem onlyOf_memberChars {name : List UInt8}
    (h : onlyOf lookupChars (name.map tolower) = true) :
    onlyOf memberChars name = true ↔ ∀ c ∈ name, c ≠ 57 ∧ ¬ (65 ≤ c ∧ c ≤ 90) := by
  have hlower : ∀ c ∈ name, tolower c ∈ lookupChars := fun c hc =>
    onlyOf_iff.1 h _ (List.mem_map_of_mem hc)
  rw [onlyOf_iff, memberChars_eq]
  refine forall₂_congr fun c hc => ?_
  rw [List.mem_append, List.mem_filter, List.mem_singleton, decide_eq_true_eq]
  constructor
  · rintro (⟨hmem, hne⟩ | rfl)
    · exact ⟨hne, (lookupChars_facts hmem).1⟩
    · exact absurd rfl (lookupChars_facts (hlower 32 hc)).2
  · rintro ⟨hne, hupper⟩
    have hmem := hlower c hc
    rw [tolower_of_not_upper hupper] at hmem
    exact .inl ⟨hmem, hne⟩

section
variable {emit : Yaml → List UInt8} {d : Datas} {root : Yaml}

theorem dotted_ne_nil {key : List UInt8} (h : key ≠ []) (path : List (List UInt8)) :
    dotted (key :: path) ≠ [] := fun h0 => h (List.append_eq_nil_iff.1 h0).1

/-- A node that spells an item is loaded into it just if its keys are plain. -/
theorem reached_iff {o : List (List UInt8) × Yaml} (ho : o ∈ nodes root) (hne : o.1 ≠ [])
    (hname : (dotted o.1).map tolower ∈ d.names) :
    ⟨o.1, (dotted o.1).map tolower, nodeText emit o.2⟩ ∈ loadFromYaml emit d root ↔
      o.1.head? ≠ some [] ∧ ∀ c ∈ dotted o.1, c ≠ 57 ∧ ¬ (65 ≤ c ∧ c ≤ 90) := by
  obtain ⟨path, node⟩ := o
  obtain ⟨key, path, rfl⟩ := List.exists_cons_of_ne_nil hne
  dsimp only at hname ⊢
  rw [mem_loadFromYaml, ← onlyOf_memberChars (d.valid _ hname), List.head?_cons]
  by_cases hkey : key = []
  · -- the name is shorter than the dotted keys
    subst hkey
    refine iff_of_false ?_ fun h => h.1 rfl
    rintro ⟨o', -, -, hname', -, hcall⟩
    obtain ⟨hpath, hlower, -⟩ := FromString.mk.inj hcall
    rw [← hpath, nameOf_nil_cons] at hlower hname'
    have hlen := congrArg List.length hlower
    rw [List.length_map, List.length_map] at hlen
    cases path with
    | nil => exact hname' rfl
    | cons key' path =>
      have hle := length_nameOf_le (key' :: path)
      simp only [dotted, List.nil_append, List.flatMap_cons, List.length_append,
        List.length_cons] at hlen hle
      omega
  · have hnameOf := nameOf_cons hkey path
    constructor
    · rintro ⟨o', -, hall, -, -, hcall⟩
      obtain ⟨hpath, -, -⟩ := FromString.mk.inj hcall
      rw [← hpath, hnameOf] at hall
      exact ⟨fun h => hkey (Option.some.inj h), hall⟩
    · rintro ⟨-, hall⟩
      refine ⟨_, ho, ?_⟩
      rw [hnameOf]
      exact ⟨hall, dotted_ne_nil hkey path, hname, rfl⟩

/-- The items that are touched are spelled, unless empty keys stand in front of a name. -/
theorem touched_iff :
    (∀ call ∈ loadFromYaml emit d root, ∃ o ∈ nodes root, o.1 ≠ [] ∧
      (dotted o.1).map tolower = call.name) ↔ NoStray d root := by
  constructor
  · intro h o ho _ hne hname h57
    rw [← nameOf_eq] at hne hname h57 ⊢
    have hvalid := onlyOf_iff.1 (d.valid _ hname)
    have hlower := map_tolower fun c hc => (lookupChars_facts (hvalid c hc)).1
    have hall : onlyOf memberChars (nameOf o.1) = true :=
      (onlyOf_memberChars (hlower.symm ▸ d.valid _ hname)).2 fun c hc =>
        ⟨fun h => h57 (h ▸ hc), (lookupChars_facts (hvalid c hc)).1⟩
    obtain ⟨o', ho', hne', hspell⟩ := h _ (mem_loadFromYaml.2
      ⟨o, ho, hall, hne, by rwa [hlower], rfl⟩)
    exact ⟨o', ho', hne', hspell.trans hlower⟩
  · intro h call hcall
    obtain ⟨o, ho, hall, hne, hname, rfl⟩ := mem_loadFromYaml.1 hcall
    have hplain := (onlyOf_memberChars (d.valid _ hname)).1 hall
    have hlower := map_tolower fun c hc => (hplain c hc).2
    by_cases hhead : o.1.head? = some []
    · have hname' : nameOf o.1 ∈ d.names := hlower ▸ hname
      rw [nameOf_eq] at hne hname' hplain
      obtain ⟨o', ho', hne', hspell⟩ := h o ho hhead hne hname' fun h57 => (hplain 57 h57).1 rfl
      exact ⟨o', ho', hne', by rw [hspell, hlower, nameOf_eq]⟩
    · cases hpath : o.1 with
      | nil =>
        rw [hpath] at hne
        exact absurd rfl hne
      | cons key path =>
        rw [hpath] at hhead
        have hkey : key ≠ [] := fun h0 => hhead (congrArg some h0)
        refine ⟨o, ho, ?_, ?_⟩
        · rw [hpath]
          exact List.cons_ne_nil _ _
        · rw [hpath, nameOf_cons hkey]

/-- A document is loaded right just if its keys are plain, and none is empty in front of the name of
an item. -/
theorem loadsRight_iff (emit : Yaml → List UInt8) (d : Datas) (root : Yaml) :
    LoadsRight emit d root ↔ PlainKeys d root ∧ NoStray d root := by
  constructor
  · intro h
    exact ⟨fun o ho hne hname => (reached_iff ho hne hname).1 (h.reached o ho hne hname),
      touched_iff.1 h.touched⟩
  · rintro ⟨hplain, hstray⟩
    exact ⟨fun o ho hne hname => (reached_iff ho hne hname).2 (hplain o ho hne hname),
      touched_iff.2 hstray⟩

/-- An item that `Lookup` takes and the document does not reach. -/
theorem not_loadsRight_nine :
    ¬ LoadsRight (fun _ => []) ⟨[ascii "port9"], by decide⟩ (.map [(ascii "port9", .scalar [49])]) := by
  intro h
  have hcall := h.reached ([ascii "port9"], .scalar [49]) (by simp [nodes, nodesFrom, pairsFrom])
    (List.cons_ne_nil _ _) (by decide)
  have hnone : loadFromYaml (fun _ => []) ⟨[ascii "port9"], by decide⟩
    (.map [(ascii "port9", .scalar [49])]) = [] := by decide
  rw [hnone] at hcall
  cases hcall

end

end CoroutineScheduler.Config
