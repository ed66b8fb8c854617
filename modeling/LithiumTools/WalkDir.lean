import LithiumTools.Resolve

/-!
# Walking a directory

`WalkDir::new(root)` with the crate's defaults: depth first, children in `readdir` order, links
followed only at the root.
-/

namespace LithiumTools

namespace Node

/-- The real paths below a node, in the order the walk visits them: an entry, then everything
below it when it is a directory, then the next entry. -/
def walkNames : Node → List (List Name)
  | .dir es => walkEntries es
  | _ => []
where walkEntries : List (Name × Node) → List (List Name)
  | [] => []
  | (n, c) :: es => [n] :: (walkNames c).map (n :: ·) ++ walkEntries es

@[simp] theorem walkNames_dir (es : List (Name × Node)) :
    (Node.dir es).walkNames = walkNames.walkEntries es := rfl
@[simp] theorem walkNames_file (d : Bytes) (m : Metadata) : (Node.file d m).walkNames = [] := rfl
@[simp] theorem walkNames_symlink (t : List Char) : (Node.symlink t).walkNames = [] := rfl
@[simp] theorem walkEntries_nil : walkNames.walkEntries [] = [] := rfl
@[simp] theorem walkEntries_cons (n : Name) (c : Node) (es : List (Name × Node)) :
    walkNames.walkEntries ((n, c) :: es) =
      [n] :: (walkNames c).map (n :: ·) ++ walkNames.walkEntries es := rfl

end Node

/-- The paths `WalkDir::new(root).into_iter().filter_map(|e| e.ok())` yields. The root is looked
up with its links followed; when that fails the walk yields only an error, which is dropped. -/
def walkDir (fs : Fs) (root : List Component) : List (List Component) :=
  match fs.stat root with
  | .ok (_, .dir es) => root :: (Node.dir es).walkNames.map fun q => root ++ q.map .normal
  | .ok _ => [root]
  | .error _ => []

end LithiumTools
