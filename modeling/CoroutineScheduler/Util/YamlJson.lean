import CoroutineScheduler.Config.Yaml
import CoroutineScheduler.Lib.OrderedMap

/-!
# YAML and JSON trees

`YamlToJson` and `JsonToYaml` of `util.cc`. Both write into a node of the caller, which becomes an
array, an object, a sequence or a map with its first child; an operation that the node refuses
throws, which the `catch` turns into `false`. A container without children leaves the node null, and
`JsonToYaml` counts the elements of an array in an `int`.

`toYaml_toJson` says what becomes of a tree on the way there and back.
-/

namespace CoroutineScheduler

/-- `Json::Value`. The members of an object are in the order of their names; what is neither null nor
a string nor a container is known by what `asString` makes of it. -/
inductive Json
  | null
  | string (text : List UInt8)
  | other (text : List UInt8)
  | array (items : List Json)
  | object (pairs : List (List UInt8 × Json))

/-- `append`, `none` where it throws. -/
def Json.append (jnode v : Json) : Option Json :=
  match jnode with
  | .null => some (.array [v])
  | .array items => some (.array (items ++ [v]))
  | .string _ | .other _ | .object _ => none

/-- `jnode[name] = v`, `none` where it throws. -/
def Json.set (jnode : Json) (name : List UInt8) (v : Json) : Option Json :=
  match jnode with
  | .null => some (.object [(name, v)])
  | .object pairs => some (.object (OrderedMap.upsert id (fun _ => v) name v pairs))
  | .string _ | .other _ | .array _ => none

namespace Yaml

/-- `push_back`, `none` where it throws. -/
def pushBack (ynode n : Yaml) : Option Yaml :=
  match ynode with
  | .null => some (.seq [n])
  | .seq items => some (.seq (items ++ [n]))
  | .scalar _ | .map _ => none

/-- The pairs of a map with a value for a key. -/
def setPair (key : List UInt8) (n : Yaml) : List (List UInt8 × Yaml) → List (List UInt8 × Yaml)
  | [] => [(key, n)]
  | (k, v) :: pairs => if k = key then (k, n) :: pairs else (k, v) :: setPair key n pairs

/-- `ynode[key] = n`, `none` where it throws. A sequence never comes here. -/
def set (ynode : Yaml) (key : List UInt8) (n : Yaml) : Option Yaml :=
  match ynode with
  | .null => some (.map [(key, n)])
  | .map pairs => some (.map (setPair key n pairs))
  | .scalar _ | .seq _ => none

end Yaml

/-! ## The two functions -/

mutual

/-- `YamlToJson`, with `jnode` as it is left behind. -/
def yamlToJson : Yaml → Json → Bool × Json
  | .null, jnode => (true, jnode)
  | .scalar text, _ => (true, .string text)
  | .seq items, jnode => itemsToJson items jnode
  | .map pairs, jnode => pairsToJson pairs jnode

def itemsToJson : List Yaml → Json → Bool × Json
  | [], jnode => (true, jnode)
  | n :: items, jnode =>
    let r := yamlToJson n .null
    if r.1 then
      match jnode.append r.2 with
      | some jnode => itemsToJson items jnode
      | none => (false, jnode)
    else (false, jnode)

def pairsToJson : List (List UInt8 × Yaml) → Json → Bool × Json
  | [], jnode => (true, jnode)
  | (key, n) :: pairs, jnode =>
    let r := yamlToJson n .null
    if r.1 then
      match jnode.set key r.2 with
      | some jnode => pairsToJson pairs jnode
      | none => (false, jnode)
    else (false, jnode)

end

/-- `(int)jnode.size()`, where `size` is an `unsigned int`, as a number of rounds. -/
def rounds (size : ℕ) : ℕ := ((size : ℤ).bmod (2 ^ 32)).toNat

mutual

/-- `JsonToYaml`, with `ynode` as it is left behind. -/
def jsonToYaml : Json → Yaml → Bool × Yaml
  | .null, _ => (true, .scalar [])
  | .string text, _ | .other text, _ => (true, .scalar text)
  | .array items, ynode => itemsToYaml (rounds items.length) items ynode
  | .object pairs, ynode => pairsToYaml pairs ynode

/-- The loop over an array with so many rounds, which are never more than it has elements. -/
def itemsToYaml : ℕ → List Json → Yaml → Bool × Yaml
  | 0, _, ynode | _ + 1, [], ynode => (true, ynode)
  | count + 1, v :: items, ynode =>
    let r := jsonToYaml v .null
    if r.1 then
      match ynode.pushBack r.2 with
      | some ynode => itemsToYaml count items ynode
      | none => (false, ynode)
    else (false, ynode)

def pairsToYaml : List (List UInt8 × Json) → Yaml → Bool × Yaml
  | [], ynode => (true, ynode)
  | (name, v) :: pairs, ynode =>
    let r := jsonToYaml v .null
    if r.1 then
      match ynode.set name r.2 with
      | some ynode => pairsToYaml pairs ynode
      | none => (false, ynode)
    else (false, ynode)

end

/-! ## Trees -/

namespace Yaml

mutual

/-- A fact about every node of a tree. -/
def All (p : Yaml → Prop) : Yaml → Prop
  | .null => p .null
  | .scalar text => p (.scalar text)
  | .seq items => p (.seq items) ∧ AllItems p items
  | .map pairs => p (.map pairs) ∧ AllPairs p pairs

def AllItems (p : Yaml → Prop) : List Yaml → Prop
  | [] => True
  | n :: items => All p n ∧ AllItems p items

def AllPairs (p : Yaml → Prop) : List (List UInt8 × Yaml) → Prop
  | [] => True
  | (_, n) :: pairs => All p n ∧ AllPairs p pairs

end

mutual

/-- The same tree up to the order of maps. -/
def Same : Yaml → Yaml → Prop
  | .null, .null => True
  | .scalar text, .scalar text' => text = text'
  | .seq items, .seq items' => SameItems items items'
  | .map pairs, .map pairs' => pairs.length = pairs'.length ∧ SamePairs pairs pairs'
  | _, _ => False

def SameItems : List Yaml → List Yaml → Prop
  | [], [] => True
  | n :: items, n' :: items' => Same n n' ∧ SameItems items items'
  | _, _ => False

/-- Every pair has one of the same key and value in the other list. -/
def SamePairs : List (List UInt8 × Yaml) → List (List UInt8 × Yaml) → Prop
  | [], _ => True
  | (key, n) :: pairs, pairs' => (∃ n', (key, n') ∈ pairs' ∧ Same n n') ∧ SamePairs pairs pairs'

end

/-- A node of a tree of scalars, sequences and maps without a key twice. -/
def IsTree : Yaml → Prop
  | .null => False
  | .scalar _ | .seq _ => True
  | .map pairs => (pairs.map Prod.fst).Nodup

/-- A node that is kept: a container has children, and a sequence not too many. -/
def Kept : Yaml → Prop
  | .null | .scalar _ => True
  | .seq items => items ≠ [] ∧ items.length < 2 ^ 31
  | .map pairs => pairs ≠ []

end Yaml

open Yaml

/-- `JsonToYaml` gives back what `YamlToJson` was given. -/
def RoundTrips (t : Yaml) : Prop :=
  ∃ j u, yamlToJson t .null = (true, j) ∧ jsonToYaml j .null = (true, u) ∧ Same t u

/-- What becomes of a null node. -/
def toJson (t : Yaml) : Json := (yamlToJson t .null).2

def toYaml (j : Json) : Yaml := (jsonToYaml j .null).2

/-! ## Loops -/

section
variable {t n : Yaml} {v j : Json}

theorem yamlToJson_eq (h : (yamlToJson t .null).1 = true) : yamlToJson t .null = (true, toJson t) :=
  Prod.ext h rfl

theorem jsonToYaml_eq (h : (jsonToYaml j .null).1 = true) : jsonToYaml j .null = (true, toYaml j) :=
  Prod.ext h rfl

theorem itemsToJson_cons {items : List Yaml} {jnode jnode' : Json}
    (h : yamlToJson n .null = (true, v)) (hset : jnode.append v = some jnode') :
    itemsToJson (n :: items) jnode = itemsToJson items jnode' := by
  rw [itemsToJson, h]
  simp only [hset, if_true]

theorem pairsToJson_cons {pairs : List (List UInt8 × Yaml)} {key : List UInt8} {jnode jnode' : Json}
    (h : yamlToJson n .null = (true, v)) (hset : jnode.set key v = some jnode') :
    pairsToJson ((key, n) :: pairs) jnode = pairsToJson pairs jnode' := by
  rw [pairsToJson, h]
  simp only [hset, if_true]

theorem itemsToYaml_cons {count : ℕ} {items : List Json} {ynode ynode' : Yaml}
    (h : jsonToYaml v .null = (true, n)) (hset : ynode.pushBack n = some ynode') :
    itemsToYaml (count + 1) (v :: items) ynode = itemsToYaml count items ynode' := by
  rw [itemsToYaml, h]
  simp only [hset, if_true]

theorem pairsToYaml_cons {pairs : List (List UInt8 × Json)} {name : List UInt8}
    {ynode ynode' : Yaml} (h : jsonToYaml v .null = (true, n))
    (hset : ynode.set name n = some ynode') :
    pairsToYaml ((name, v) :: pairs) ynode = pairsToYaml pairs ynode' := by
  rw [pairsToYaml, h]
  simp only [hset, if_true]

end

/-- An object with some members set one after the other. -/
def setAll (members : List (List UInt8 × Json)) (pairs : List (List UInt8 × Json)) :
    List (List UInt8 × Json) :=
  members.foldl (fun m e => OrderedMap.upsert id (fun _ => e.2) e.1 e.2 m) pairs

mutual

/-- A null node takes every tree. -/
theorem yamlToJson_ok : ∀ t : Yaml, (yamlToJson t .null).1 = true
  | .null | .scalar _ => by rw [yamlToJson]
  | .seq [] => by rw [yamlToJson, itemsToJson]
  | .seq (n :: items) => by
    rw [yamlToJson, itemsToJson_cons (yamlToJson_eq (yamlToJson_ok n)) rfl, itemsToJson_eq items _]
  | .map [] => by rw [yamlToJson, pairsToJson]
  | .map ((key, n) :: pairs) => by
    rw [yamlToJson, pairsToJson_cons (yamlToJson_eq (yamlToJson_ok n)) rfl, pairsToJson_eq pairs _]

/-- The elements go behind those of the array. -/
theorem itemsToJson_eq : ∀ (items : List Yaml) (done : List Json),
    itemsToJson items (.array done) = (true, .array (done ++ items.map toJson))
  | [], done => by
    rw [itemsToJson, List.map_nil, List.append_nil]
  | n :: items, done => by
    rw [itemsToJson_cons (yamlToJson_eq (yamlToJson_ok n)) rfl, itemsToJson_eq items _,
      List.append_assoc]
    rfl

theorem pairsToJson_eq : ∀ (pairs : List (List UInt8 × Yaml)) (done : List (List UInt8 × Json)),
    pairsToJson pairs (.object done) =
      (true, .object (setAll (pairs.map fun e => (e.1, toJson e.2)) done))
  | [], done => by
    rw [pairsToJson]
    rfl
  | (key, n) :: pairs, done => by
    rw [pairsToJson_cons (yamlToJson_eq (yamlToJson_ok n)) rfl, pairsToJson_eq pairs _]
    rfl

end

theorem setPair_of_not_mem {key : List UInt8} {pairs : List (List UInt8 × Yaml)} (n : Yaml)
    (h : key ∉ pairs.map Prod.fst) : setPair key n pairs = pairs ++ [(key, n)] := by
  induction pairs with
  | nil => rfl
  | cons e pairs ih =>
    obtain ⟨hne, hmem⟩ := not_or.1 (mt List.mem_cons.2 h)
    rw [setPair, if_neg fun he => hne he.symm, ih hmem]
    rfl

mutual

theorem jsonToYaml_ok : ∀ j : Json, (jsonToYaml j .null).1 = true
  | .null | .string _ | .other _ => by rw [jsonToYaml]
  | .array [] => by
    rw [jsonToYaml]
    cases rounds ([] : List Json).length <;> rw [itemsToYaml]
  | .array (v :: items) => by
    rw [jsonToYaml]
    cases rounds (v :: items).length with
    | zero => rw [itemsToYaml]
    | succ count =>
      rw [itemsToYaml_cons (jsonToYaml_eq (jsonToYaml_ok v)) rfl, itemsToYaml_eq items _ _]
  | .object [] => by rw [jsonToYaml, pairsToYaml]
  | .object ((name, v) :: pairs) => by
    obtain ⟨m, hm⟩ := exists_pairsToYaml pairs [(name, toYaml v)]
    rw [jsonToYaml, pairsToYaml_cons (jsonToYaml_eq (jsonToYaml_ok v)) rfl, hm]

theorem itemsToYaml_eq : ∀ (items : List Json) (count : ℕ) (done : List Yaml),
    itemsToYaml count items (.seq done) =
      (true, .seq (done ++ (items.take count).map toYaml))
  | items, 0, done => by
    rw [itemsToYaml, List.take_zero, List.map_nil, List.append_nil]
  | [], count + 1, done => by
    rw [itemsToYaml, List.take_nil, List.map_nil, List.append_nil]
  | v :: items, count + 1, done => by
    rw [itemsToYaml_cons (jsonToYaml_eq (jsonToYaml_ok v)) rfl, itemsToYaml_eq items count _,
      List.append_assoc]
    rfl

/-- A map takes every member. -/
theorem exists_pairsToYaml : ∀ (pairs : List (List UInt8 × Json)) (done : List (List UInt8 × Yaml)),
    ∃ m, pairsToYaml pairs (.map done) = (true, .map m)
  | [], done => ⟨done, by rw [pairsToYaml]⟩
  | (name, v) :: pairs, done => by
    obtain ⟨m, hm⟩ := exists_pairsToYaml pairs (setPair name (toYaml v) done)
    exact ⟨m, by rw [pairsToYaml_cons (jsonToYaml_eq (jsonToYaml_ok v)) rfl, hm]⟩

end

/-- The members of an object with different names follow those of the map. -/
theorem pairsToYaml_eq (pairs : List (List UInt8 × Json)) (done : List (List UInt8 × Yaml))
    (h : (done.map Prod.fst ++ pairs.map Prod.fst).Nodup) :
    pairsToYaml pairs (.map done) =
      (true, .map (done ++ pairs.map fun e => (e.1, toYaml e.2))) := by
  induction pairs generalizing done with
  | nil => rw [pairsToYaml, List.map_nil, List.append_nil]
  | cons e pairs ih =>
    obtain ⟨name, v⟩ := e
    have hnew : name ∉ done.map Prod.fst := fun hmem =>
      (List.nodup_append.1 h).2.2 name hmem name (List.mem_cons_self ..) rfl
    have hset : (Yaml.map done).set name (toYaml v) = some (.map (done ++ [(name, toYaml v)])) :=
      congrArg (some ∘ Yaml.map) (setPair_of_not_mem _ hnew)
    rw [pairsToYaml_cons (jsonToYaml_eq (jsonToYaml_ok v)) hset, ih _ (by simpa using h),
      List.append_assoc]
    rfl

/-! ## There and back -/

theorem toJson_seq (n : Yaml) (items : List Yaml) :
    toJson (.seq (n :: items)) = .array ((n :: items).map toJson) := by
  unfold toJson
  rw [yamlToJson, itemsToJson_cons (yamlToJson_eq (yamlToJson_ok n)) rfl, itemsToJson_eq]
  rfl

theorem toJson_map (key : List UInt8) (n : Yaml) (pairs : List (List UInt8 × Yaml)) :
    toJson (.map ((key, n) :: pairs)) =
      .object (setAll (((key, n) :: pairs).map fun e => (e.1, toJson e.2)) []) := by
  unfold toJson
  rw [yamlToJson, pairsToJson_cons (yamlToJson_eq (yamlToJson_ok n)) rfl, pairsToJson_eq]
  rfl

theorem itemsToYaml_null (count : ℕ) (v : Json) (items : List Json) :
    itemsToYaml count (v :: items) .null =
      (true, if count = 0 then .null else .seq (((v :: items).take count).map toYaml)) := by
  cases count with
  | zero => rw [itemsToYaml, if_pos rfl]
  | succ count =>
    rw [itemsToYaml_cons (jsonToYaml_eq (jsonToYaml_ok v)) rfl, itemsToYaml_eq,
      if_neg (Nat.succ_ne_zero count), List.take_succ_cons, List.map_cons, List.singleton_append]

theorem toYaml_array (v : Json) (items : List Json) :
    toYaml (.array (v :: items)) =
      if rounds (items.length + 1) = 0 then .null
      else .seq (((v :: items).take (rounds (items.length + 1))).map toYaml) := by
  have hloop := itemsToYaml_null (rounds (items.length + 1)) v items
  have harray : jsonToYaml (.array (v :: items)) .null =
      itemsToYaml (rounds (items.length + 1)) (v :: items) .null := by
    rw [jsonToYaml, List.length_cons]
  rw [toYaml, harray, hloop]

theorem toYaml_object {pairs : List (List UInt8 × Json)} (hne : pairs ≠ [])
    (h : (pairs.map Prod.fst).Nodup) :
    toYaml (.object pairs) = .map (pairs.map fun e => (e.1, toYaml e.2)) := by
  match pairs, hne with
  | (name, v) :: pairs, _ =>
    unfold toYaml
    rw [jsonToYaml, pairsToYaml_cons (jsonToYaml_eq (jsonToYaml_ok v)) rfl,
      pairsToYaml_eq pairs [(name, toYaml v)] h]
    rfl

/-- New members with different names, in some order. -/
theorem perm_setAll (members pairs : List (List UInt8 × Json))
    (h : (members.map Prod.fst ++ pairs.map Prod.fst).Nodup) :
    (setAll members pairs).Perm (members ++ pairs) := by
  induction members generalizing pairs with
  | nil => exact List.Perm.refl _
  | cons e members ih =>
    obtain ⟨hnew, hrest⟩ := List.nodup_cons.1 h
    have hput : (OrderedMap.upsert id (fun _ => e.2) e.1 e.2 pairs).Perm (e :: pairs) :=
      OrderedMap.perm_upsert fun d hd he =>
        hnew (List.mem_append_right _ (List.mem_map.2 ⟨d, hd, he⟩))
    have hkeys : (members.map Prod.fst ++
        (OrderedMap.upsert id (fun _ => e.2) e.1 e.2 pairs).map Prod.fst).Perm
        (e.1 :: (members.map Prod.fst ++ pairs.map Prod.fst)) :=
      ((hput.map Prod.fst).append_left _).trans List.perm_middle
    exact ((ih _ (hkeys.nodup_iff.2 h)).trans (hput.append_left _)).trans List.perm_middle

theorem rounds_eq {size : ℕ} (h : size < 2 ^ 31) : rounds size = size := by
  unfold rounds
  rw [Int.bmod_eq_of_le (by omega) (by omega)]
  rfl

theorem rounds_lt {size : ℕ} (h : 2 ^ 31 ≤ size) : rounds size < size := by
  have hlt := Int.bmod_lt (x := size) (m := 2 ^ 32) (by decide)
  unfold rounds
  omega

theorem Yaml.SameItems.length_eq : ∀ {items items' : List Yaml}, SameItems items items' →
    items.length = items'.length
  | [], [], _ => rfl
  | [], _ :: _, h | _ :: _, [], h => by
    rw [SameItems] at h
    exact h.elim
    all_goals simp
  | _ :: _, _ :: _, h => by
    rw [SameItems] at h
    exact congrArg (· + 1) (Yaml.SameItems.length_eq h.2)

theorem kept_seq (items : List Yaml) :
    Kept (.seq items) ↔ items ≠ [] ∧ items.length < 2 ^ 31 := Iff.rfl

mutual

/-- A tree comes back if and only if its nodes are kept. -/
theorem toYaml_toJson : ∀ t : Yaml, t.All IsTree → (Same t (toYaml (toJson t)) ↔ t.All Kept)
  | .null, h => by
    rw [All] at h
    exact h.elim
  | .scalar text, _ => by
    have hback : toYaml (toJson (.scalar text)) = .scalar text := by
      unfold toJson toYaml
      rw [yamlToJson, jsonToYaml]
    rw [hback, Same, All]
    exact ⟨fun _ => trivial, fun _ => rfl⟩
  | .seq [], _ => by
    have hback : toYaml (toJson (.seq [])) = .scalar [] := by
      unfold toJson toYaml
      rw [yamlToJson, itemsToJson, jsonToYaml]
    rw [hback, All]
    refine ⟨fun h => ?_, fun h => absurd rfl h.1.1⟩
    rw [Same] at h
    · exact h.elim
    all_goals simp
  | .seq (n :: items), h => by
    rw [All] at h
    have hitems := sameItems_iff (n :: items) h.2
    have hlen : (items.map toJson).length + 1 = (n :: items).length :=
      congrArg (· + 1) (List.length_map ..)
    rw [toJson_seq, List.map_cons, toYaml_array, hlen, All, kept_seq]
    have hpos : (n :: items).length ≠ 0 := Nat.succ_ne_zero _
    rcases Nat.lt_or_ge (n :: items).length (2 ^ 31) with hlt | hge
    · have htake : (toJson n :: items.map toJson).take (n :: items).length =
          toJson n :: items.map toJson := List.take_of_length_le hlen.le
      rw [rounds_eq hlt, if_neg hpos, htake, Same, ← List.map_cons, List.map_map,
        hitems]
      exact ⟨fun h => ⟨⟨List.cons_ne_nil _ _, hlt⟩, h⟩, And.right⟩
    · have hlt := rounds_lt hge
      generalize rounds (n :: items).length = count at hlt
      refine ⟨fun hs => ?_, fun h => by have := h.1.2; omega⟩
      split_ifs at hs
      · rw [Same] at hs
        · exact hs.elim
        all_goals simp
      · rw [Same] at hs
        have heq := hs.length_eq
        rw [List.length_map, List.length_take] at heq
        omega
  | .map [], _ => by
    have hback : toYaml (toJson (.map [])) = .scalar [] := by
      unfold toJson toYaml
      rw [yamlToJson, pairsToJson, jsonToYaml]
    rw [hback, All]
    refine ⟨fun h => ?_, fun h => absurd rfl h.1⟩
    rw [Same] at h
    · exact h.elim
    all_goals simp
  | .map ((key, n) :: pairs), h => by
    rw [All] at h
    have hkeys : ((((key, n) :: pairs).map fun e => (e.1, toJson e.2)).map Prod.fst).Nodup := by
      rw [List.map_map]
      exact h.1
    have hperm := perm_setAll (((key, n) :: pairs).map fun e => (e.1, toJson e.2)) []
      (by rwa [List.map_nil, List.append_nil])
    rw [List.append_nil] at hperm
    have hnodup := (hperm.map Prod.fst).nodup_iff.2 hkeys
    have hback := hperm.map fun e => (e.1, toYaml e.2)
    rw [toJson_map, toYaml_object (fun h0 => by rw [h0] at hperm; simp at hperm) hnodup, Same, All,
      samePairs_iff _ _ h.2 (fun e he => hback.mem_iff.2 ?_) (by rwa [List.map_map])]
    · refine ⟨fun hs => ⟨List.cons_ne_nil _ _, hs.2⟩, fun hs => ⟨?_, hs.2⟩⟩
      rw [hback.length_eq, List.length_map, List.length_map]
    · rw [List.map_map]
      exact List.mem_map.2 ⟨e, he, rfl⟩

theorem sameItems_iff : ∀ items : List Yaml, AllItems IsTree items →
    (SameItems items (items.map (toYaml ∘ toJson)) ↔ AllItems Kept items)
  | [], _ => by
    rw [List.map_nil, SameItems, AllItems]
  | n :: items, h => by
    rw [AllItems] at h
    rw [List.map_cons, SameItems, AllItems]
    exact and_congr (toYaml_toJson n h.1) (sameItems_iff items h.2)

theorem samePairs_iff : ∀ pairs pairs' : List (List UInt8 × Yaml), AllPairs IsTree pairs →
    (∀ e ∈ pairs, (e.1, toYaml (toJson e.2)) ∈ pairs') → (pairs'.map Prod.fst).Nodup →
      (SamePairs pairs pairs' ↔ AllPairs Kept pairs)
  | [], _, _, _, _ => by
    rw [SamePairs, AllPairs]
  | (key, n) :: pairs, pairs', h, hmem, hnodup => by
    rw [AllPairs] at h
    rw [SamePairs, AllPairs]
    obtain ⟨hkey, hpairs⟩ := List.forall_mem_cons.1 hmem
    refine and_congr (Iff.trans ⟨?_, fun hs => ⟨_, hkey, hs⟩⟩ (toYaml_toJson n h.1))
      (samePairs_iff pairs pairs' h.2 hpairs hnodup)
    rintro ⟨n', hn', hs⟩
    have hn : n' = toYaml (toJson n) := congrArg Prod.snd
      (List.inj_on_of_nodup_map hnodup hn' hkey rfl)
    exact hn ▸ hs

end

/-- A tree of scalars, sequences and maps comes back if and only if no sequence and no map in it is
empty, and no sequence has as many elements as an `int` cannot count. -/
theorem yaml_roundTrips_iff (t : Yaml) (h : t.All IsTree) : RoundTrips t ↔ t.All Kept := by
  have hj := yamlToJson_eq (yamlToJson_ok t)
  have hu := jsonToYaml_eq (jsonToYaml_ok (toJson t))
  rw [← toYaml_toJson t h]
  constructor
  · rintro ⟨j, u, hj', hu', hs⟩
    obtain rfl : toJson t = j := congrArg Prod.snd (hj.symm.trans hj')
    obtain rfl : toYaml (toJson t) = u := congrArg Prod.snd (hu.symm.trans hu')
    exact hs
  · intro hs
    exact ⟨_, _, hj, hu, hs⟩

theorem yaml_roundTrips_iff_pair : RoundTrips (.map [([98], .seq [.scalar [49]]), ([97], .scalar [])]) ↔
    (Yaml.map [([98], .seq [.scalar [49]]), ([97], .scalar [])]).All Kept :=
  yaml_roundTrips_iff _ (by simp [All, AllItems, AllPairs, IsTree])

/-- The empty sequence comes back as an empty text. -/
theorem not_roundTrips_empty : toYaml (toJson (.seq [])) = .scalar [] ∧ ¬ RoundTrips (.seq []) := by
  have hback : toYaml (toJson (.seq [])) = .scalar [] := by
    unfold toJson toYaml
    rw [yamlToJson, itemsToJson, jsonToYaml]
  refine ⟨hback, ?_⟩
  rintro ⟨j, u, hj, hu, hs⟩
  obtain rfl : toJson (.seq []) = j := congrArg Prod.snd hj
  obtain rfl : toYaml (toJson (.seq [])) = u := congrArg Prod.snd hu
  rw [hback, Same] at hs
  · exact hs.elim
  all_goals simp

end CoroutineScheduler
