/-
# What `partition_graph` writes

`partition_graph` and the functions that load its files (`srcChange/partition/aly_partition.py`),
for `reshuffle=True`, more than one partition, no dictionary as `balance_ntypes` and
`return_mapping=False`: the ranges of the ids of each partition, the features of each
partition, and how both are read again.  The nodes of a graph and its edges are treated
alike up to a few places, so both are a `Side` of the graph; `halo` is
`partition_graph_with_halo`, and the assignment is what METIS or `random_choice` returned.

The assignment is not used as it is: the first 98308 nodes go to partition 0 and the next
98308 to partition 1.

In the configuration file an edge type is a text.  The functions between both are the
library's (`_etype_tuple_to_str`, `_etype_str_to_tuple`), and the one that reads a text may
fail.
-/

import Mathlib.Algebra.Ring.Nat
import Mathlib.Data.Int.Notation
import Mathlib.Data.List.AList
import Mathlib.Data.List.Sort

namespace BearRpc
namespace Store

/-- The exceptions. -/
inductive Failure where
  | assertion
  | index
  | key
  | value
  /-- `DGLError` -/
  | dgl
  /-- a local variable without a value -/
  | unbound
  /-- `Exception('Unknown partitioning method: ' + part_method)` -/
  | method
  deriving DecidableEq, Repr

/-- A node of a partition graph with its data `inner_node`, `dgl.NID`, `orig_id` and
`dgl.NTYPE`, or an edge with the data of the same meaning. -/
structure Row where
  inner : Bool
  id : ℕ
  orig : ℕ
  /-- there is no such data in a homogeneous graph -/
  type : Option ℕ := none
  deriving DecidableEq, Repr

/-- A partition graph. -/
structure Part where
  nodes : List Row
  edges : List Row
  deriving DecidableEq, Repr

/-- The nodes of the graph, or its edges: the types with their texts, the number of items
and the features of each type, and for every item of `sim_g` its type and its id in that
type.  `ofStr` reads the text of a type, unless its assertion fails. -/
structure Side (κ α : Type) where
  types : List κ
  str : κ → List Char
  ofStr : List Char → Option κ
  number : κ → ℕ
  data : κ → List (List Char × List α)
  simType : List ℕ
  simId : List ℕ

/-- The graph.  A node type is its own text. -/
structure Graph (τ α : Type) where
  nodes : Side (List Char) α
  edges : Side τ α
  str_nodes : ∀ type, nodes.str type = type

/-- `g.is_homogeneous`. -/
def Graph.isHomogeneous {τ α : Type} (g : Graph τ α) : Bool :=
  g.nodes.types.length == 1 && g.edges.types.length == 1

/-- `node_parts[0:98308] = 0` and `node_parts[98308:98308*2] = 1`. -/
def override (node_parts : List ℕ) : List ℕ :=
  node_parts.mapIdx fun i p => if i < 98308 then 0 else if i < 98308 * 2 then 1 else p

/-! ### Tensors -/

variable {κ τ α : Type}

/-- `F.gather_row`. -/
def gatherRow (tensor : List α) (rows : List ℕ) : Except Failure (List α) :=
  rows.mapM fun i =>
    match tensor[i]? with
    | some x => .ok x
    | none => .error .index

/-- `np.sort`. -/
def npSort (ids : List ℕ) : List ℕ := ids.insertionSort (· ≤ ·)

/-- `np.all(a == b)`, with one element compared to all. -/
def npAllEq (a b : List ℕ) : Bool :=
  if a.length = b.length then a == b
  else
    match a, b with
    | [x], b => b.all (· == x)
    | a, [y] => a.all (· == y)
    | _, _ => false

/-- The first id and the one after the last. -/
def bounds (ids : List ℕ) : Except Failure (ℕ × ℕ) :=
  match ids.head?, ids.getLast? with
  | some first, some last => .ok (first, last + 1)
  | _, _ => .error .index

/-! ### The ranges -/

/-- `_get_inner_node_mask`. -/
def innerMask (type_id : ℕ) (row : Row) : Bool := row.inner && row.type.all (· == type_id)

/-- The rows of a type that are inside the partition. -/
def innerRows (type_id : ℕ) (rows : List Row) : List Row := rows.filter (innerMask type_id)

/-- `F.astype(type, dtype)`, for a signed `dtype` of so many bits. -/
def astype (bits type : ℕ) : ℤ := (type : ℤ).bmod (2 ^ bits)

/-- The types of the items of `sim_g`, which have to stay the same in the `dtype` of
`RESERVED_FIELD_DTYPE`. -/
def setTypes (bits : ℕ) (simType : List ℕ) (rows : List Row) : Except Failure (List Row) := do
  let types ← gatherRow simType (rows.map Row.orig)
  if types.all fun type => astype bits type == type then
    return rows.zipWith (fun row type => { row with type := some type }) types
  else throw .assertion

/-- The ids of a type have to be all between the first and the last. -/
def checkType (arrange : List ℕ → List ℕ) (rows : List Row) (type_id : ℕ) :
    Except Failure Unit := do
  let typed := arrange ((innerRows type_id rows).map Row.id)
  let expected ← bounds typed
  if npAllEq typed (List.range' expected.1 (expected.2 - expected.1)) then return ()
  else throw .assertion

/-- The bits of `F.int16` -/
def ntypeBits : ℕ := 16

/-- The bits of `F.int32` -/
def etypeBits : ℕ := 32

/-- The turn of the loop for graphs that are not homogeneous; only the edges are sorted. -/
def checkPart (g : Graph τ α) (part : Part) : Except Failure Part := do
  let nodes ← setTypes ntypeBits g.nodes.simType part.nodes
  let edges ← setTypes etypeBits g.edges.simType part.edges
  (List.range g.nodes.types.length).forM (checkType id nodes)
  (List.range g.edges.types.length).forM (checkType npSort edges)
  return ⟨nodes, edges⟩

/-- The partition graphs with the types of their items. -/
def typedParts (g : Graph τ α) (parts : List Part) : Except Failure (List Part) :=
  if g.isHomogeneous then .ok parts else parts.mapM (checkPart g)

/-- `node_map_val`, or `edge_map_val` with the ids sorted. -/
def idMap (arrange : List ℕ → List ℕ) (side : Side κ α) (parts : List (List Row)) :
    Except Failure (List (κ × List (ℕ × ℕ))) :=
  side.types.zipIdx.mapM fun (type, type_id) => do
    let ranges ← parts.mapM fun rows => bounds (arrange ((innerRows type_id rows).map Row.id))
    if (parts.map fun rows => (innerRows type_id rows).length).sum = side.number type then
      return (type, ranges)
    else throw .assertion

/-- `np.all(val[:-1] <= val[1:])`. -/
def checkSorted (map : List (κ × List (ℕ × ℕ))) : Except Failure Unit :=
  map.forM fun (_, ranges) =>
    if (ranges.flatMap fun r => [r.1, r.2]).IsChain (· ≤ ·) then return () else throw .assertion

/-! ### The features -/

/-- A file of features. -/
abbrev Feats (α : Type) := AList fun _ : List Char => List α

/-- `ntype + '/' + name`. -/
def featName (side : Side κ α) (type : κ) (name : List Char) : List Char :=
  side.str type ++ '/' :: name

/-- The features of one type, of the rows `local_ids`. -/
def saveType (side : Side κ α) (skipped : List (List Char)) (type : κ) (local_ids : List ℕ)
    (feats : Feats α) : Except Failure (Feats α) :=
  (side.data type).foldlM (fun feats (name, tensor) => do
    if name ∈ skipped then return feats
    else return feats.insert (featName side type name) (← gatherRow tensor local_ids)) feats

/-- `F.gather_row(sim_g.ndata[NID], local_nodes)`, if there is more than one type. -/
def localIds (gathers : Bool) (side : Side κ α) (ids : List ℕ) : Except Failure (List ℕ) :=
  if gathers then gatherRow side.simId ids else .ok ids

/-- The features of a partition. -/
def saveFeats (gathers : Bool) (skipped : List (List Char)) (side : Side κ α) (rows : List Row) :
    Except Failure (Feats α) :=
  side.types.zipIdx.foldlM (fun feats (type, type_id) => do
    let local_ids ← localIds gathers side ((innerRows type_id rows).map Row.orig)
    saveType side skipped type local_ids feats) ∅

/-- What is written: the ranges for the configuration file, the features of each partition. -/
structure Saved (τ α : Type) where
  node_map : List (List Char × List (ℕ × ℕ))
  edge_map : List (τ × List (ℕ × ℕ))
  feats : List (Feats α × Feats α)

/-- The features of the nodes that are not saved. -/
def nodeSkipped : List (List Char) := ["_ID".toList, "inner_node".toList]

/-- The features of the edges that are not saved. -/
def edgeSkipped : List (List Char) := ["_ID".toList, "inner_edge".toList]

/-- The turn of the loop that saves the features of a partition. -/
def savePart (g : Graph τ α) (parts : List Part) (part_id : ℕ) :
    Except Failure (Feats α × Feats α) :=
  match parts[part_id]? with
  | none => throw .key
  | some part => do
    let nodes ← saveFeats (1 < g.nodes.types.length) nodeSkipped g.nodes part.nodes
    let edges ← saveFeats (!g.isHomogeneous) edgeSkipped g.edges part.edges
    return (nodes, edges)

/-- The arguments that are checked before anything is done: all of `g.formats()`, and those
for the assignment. -/
structure Call where
  formats : List (List Char)
  objtype : List Char
  part_method : List Char
  num_trainers_per_machine : ℤ

/-- The checks before the assignment. -/
def checkCall (call : Call) : Except Failure Unit :=
  if "coo".toList ∉ call.formats then throw .assertion
  else if call.objtype ∉ ["cut".toList, "vol".toList] then throw .value
  else if call.part_method = "metis".toList then
    if 1 ≤ call.num_trainers_per_machine then return () else throw .assertion
  else if call.part_method = "random".toList then return ()
  else throw .method

/-- `partition_graph`, with the assignment of the method. -/
def partitionGraph (call : Call) (halo : List ℕ → List Part) (g : Graph τ α) (num_parts : ℕ)
    (node_parts : List ℕ) : Except Failure (Saved τ α) := do
  checkCall call
  let parts ← typedParts g (halo (override node_parts))
  let node_map ← idMap id g.nodes (parts.map Part.nodes)
  let edge_map ← idMap npSort g.edges (parts.map Part.edges)
  checkSorted node_map
  checkSorted edge_map
  let feats ← (List.range num_parts).mapM (savePart g parts)
  return ⟨node_map, edge_map, feats⟩

/-! ### The configuration file -/

/-- A dictionary.  The order of its keys does not matter; `json.dump` sorts them. -/
abbrev Dict (κ β : Type) := AList fun _ : κ => β

/-- An entry of a map in the configuration file; the old format has the end only. -/
inductive Entry where
  | range (start stop : ℕ)
  | stop (stop : ℕ)
  deriving DecidableEq, Repr

/-- What `load_partition_book` reads of the configuration file. -/
structure Config where
  graph_name : List Char
  num_parts : ℕ
  node_map : Dict (List Char) (List Entry)
  edge_map : Dict (List Char) (List Entry)
  ntypes : Dict (List Char) ℕ
  etypes : Dict (List Char) ℕ

section Dict

variable {β γ κ' : Type} [DecidableEq κ']

/-- The dictionary of these assignments, one after the other. -/
def toDict (assignments : List (κ' × β)) : Dict κ' β :=
  assignments.foldl (fun d e => d.insert e.1 e.2) ∅

/-- `d.items()`. -/
def items (d : Dict κ β) : List (κ × β) := d.entries.map fun e => (e.1, e.2)

/-- A loop over the items of a dictionary that makes another one. -/
def rebuild (f : κ × β → Except Failure (κ' × γ)) (orig : List (κ × β)) :
    Except Failure (Dict κ' γ) := do
  return toDict (← orig.mapM f)

/-- `_format_part_metadata`, for one dictionary. -/
def formatKeys (formatter : κ → Except Failure κ') (orig : Dict κ β) :
    Except Failure (Dict κ' β) :=
  rebuild (fun (key, data) => do return (← formatter key, data)) (items orig)

end Dict

/-- A map as it is in the file. -/
def written (map : List (κ × List (ℕ × ℕ))) : List (κ × List Entry) :=
  map.map fun (type, ranges) => (type, ranges.map fun r => .range r.1 r.2)

/-- The keys as they are in the file. -/
def Side.texts {β : Type} (side : Side κ α) (map : List (κ × β)) : Dict (List Char) β :=
  toDict (map.map fun (type, data) => (side.str type, data))

/-- `_dump_part_config`. -/
def dumpPartConfig (g : Graph τ α) (graph_name : List Char) (num_parts : ℕ) (saved : Saved τ α) :
    Config where
  graph_name := graph_name
  num_parts := num_parts
  node_map := g.nodes.texts (written saved.node_map)
  edge_map := g.edges.texts (written saved.edge_map)
  ntypes := g.nodes.texts g.nodes.types.zipIdx
  etypes := g.edges.texts g.edges.types.zipIdx

/-! ### Loading -/

/-- `_etype_str_to_tuple`. -/
def etypeStrToTuple (edges : Side τ α) (key : List Char) : Except Failure τ :=
  match edges.ofStr key with
  | some etype => .ok etype
  | none => .error .assertion

/-- `_load_part_config`: `edge_map` and `etypes` with edge types as their keys. -/
def loadPartConfig [DecidableEq τ] (edges : Side τ α) (config : Config) :
    Except Failure (Dict τ (List Entry) × Dict τ ℕ) :=
  let formatted := do
    let edge_map ← formatKeys (etypeStrToTuple edges) config.edge_map
    let etypes ← formatKeys (etypeStrToTuple edges) config.etypes
    return (edge_map, etypes)
  match formatted with
  | .error .assertion => .error .dgl
  | result => result

/-- The ranges of the old format. -/
def fromStops : ℕ → List Entry → Except Failure (List (ℕ × ℕ))
  | _, [] => .ok []
  | start, .stop stop :: rest => do return (start, stop) :: (← fromStops stop rest)
  | _, .range _ _ :: _ => .error .value

/-- The turn of `_get_part_ranges` for one key. -/
def partRanges (entries : List Entry) : Except Failure (List (ℕ × ℕ)) :=
  match entries with
  | [] => .error .index
  | .range _ _ :: _ => entries.mapM fun
    | .range start stop => .ok (start, stop)
    | .stop _ => .error .value
  | .stop _ :: _ => fromStops 0 entries

/-- `_get_part_ranges`. -/
def getPartRanges [DecidableEq κ] (id_ranges : Dict κ (List Entry)) :
    Except Failure (Dict κ (List (ℕ × ℕ))) :=
  rebuild (fun (key, entries) => do return (key, ← partRanges entries)) (items id_ranges)

/-- `for key in map: assert key in types`. -/
def checkKeys {β γ : Type} [DecidableEq κ] (types : Dict κ β) (map : Dict κ γ) :
    Except Failure Unit :=
  (items map).forM fun (key, _) => if key ∈ types then return () else throw .assertion

/-- What a `RangePartitionBook` is made of, and the graph name. -/
structure Book (τ : Type) where
  part_id : ℕ
  num_parts : ℕ
  node_map : Dict (List Char) (List (ℕ × ℕ))
  edge_map : Dict τ (List (ℕ × ℕ))
  ntypes : Dict (List Char) ℕ
  etypes : Dict τ ℕ
  graph_name : List Char

/-- `load_partition_book`.  `is_range_part` has no value if there is no node type. -/
def loadPartitionBook [DecidableEq τ] (edges : Side τ α) (config : Config) (part_id : ℕ) :
    Except Failure (Book τ) := do
  let (edge_map, etypes) ← loadPartConfig edges config
  if part_id < config.num_parts then
    checkKeys config.ntypes config.node_map
    checkKeys etypes edge_map
    if config.node_map.entries.length = 0 then throw .unbound
    else
      let node_map ← getPartRanges config.node_map
      let edge_map ← getPartRanges edge_map
      return ⟨part_id, config.num_parts, node_map, edge_map, config.ntypes, etypes,
        config.graph_name⟩
  else throw .assertion

/-- `load_partition_feats`: names without a type get the default type. -/
def loadFeats (default_type : List Char) (feats : Feats α) : Feats α :=
  feats.entries.foldr (fun feat new_feats =>
    new_feats.insert (if '/' ∈ feat.1 then feat.1 else default_type ++ '/' :: feat.1) feat.2) ∅

end Store
end BearRpc
