import CppProject.Library.Text

/-!
# `KVSchema`

The sizes of keys and values, read from a json file.  `read_json` is the parser of a
library; the constructor is embedded from the property tree that it returns.
-/

namespace CppProject.Cannon

open Library

/-- What `KVSchema::KVSchema` and `KVSchemaType::KVSchemaType` throw. -/
inductive SchemaError where
  | badPath (path : String)
  | unknownType (type : Text)
  | badCount (count : Text)
  deriving DecidableEq, Repr

/-- The text of the `runtime_error`, or of the `ptree_bad_path`. -/
def SchemaError.what : SchemaError → Text
  | .badPath path => "No such node (".toList ++ path.toList ++ ")".toList
  | .unknownType type => "Unknown type: ".toList ++ type
  | .badCount count => "Failed to convert string (std::stoull): ".toList ++ count

/-! ## `KVSchemaType` -/

namespace KVSchemaType

def typeSizeMap : List (Text × UInt64) :=
  [("i32".toList, 4), ("i64".toList, 8), ("float".toList, 4), ("double".toList, 8)]

/-- The constructor, with the size that `get_size` returns.  It is declared `throw()`, so
an error ends the program; `boost::split` returns at least one part. -/
def construct (typeString : Text) : Except SchemaError UInt64 :=
  let typeCount := typeString.splitOn '['
  let front := typeCount.headD []
  match typeSizeMap.lookup (Text.toLower (Text.trim front)) with
  | none => .error (.unknownType front)
  | some elementSize =>
      match typeCount[1]? with
      | none => .ok (elementSize * 1)
      | some count =>
          match Text.stoull (Text.trim count) with
          | none => .error (.badCount count)
          | some elementCount => .ok (elementSize * elementCount)

end KVSchemaType

/-! ## `KVSchema` -/

/-- `boost::property_tree::ptree` -/
inductive Ptree where
  | node (data : Text) (children : List (String × Ptree))

namespace Ptree

def data : Ptree → Text
  | .node data _ => data

def children : Ptree → List (String × Ptree)
  | .node _ children => children

/-- `get_child` of a path with one name. -/
def getChild (tree : Ptree) (name : String) : Except SchemaError Ptree :=
  match tree.children.lookup name with
  | none => .error (.badPath name)
  | some child => .ok child

end Ptree

structure KVSchema where
  keySize : UInt64
  valueSize : UInt64
  deriving DecidableEq, Repr

namespace KVSchema

/-- The loop over the entries of `key` or `value`, which adds up their sizes. -/
def sumSizes (size : UInt64) : List (String × Ptree) → Except SchemaError UInt64
  | [] => .ok size
  | entry :: rest => do
      let typeString ← entry.2.getChild "type"
      let typeSize ← KVSchemaType.construct typeString.data
      sumSizes (size + typeSize) rest

/-- The constructor, from the tree that `read_json` has filled. -/
def construct (root : Ptree) : Except SchemaError KVSchema := do
  let key ← root.getChild "key"
  let keySize ← sumSizes 0 key.children
  let value ← root.getChild "value"
  let valueSize ← sumSizes 0 value.children
  .ok ⟨keySize, valueSize⟩

end KVSchema

end CppProject.Cannon
