import DecisionModel.Source.File

/-!
# The files read so far

A store keeps every file that was read, in order, and names it by its position.  Files
are only ever added, so a name stays good.  A name has 32 bits: behind 2^32 files positions
are counted from 0 again, and a new file gets the name of an old one.
-/

namespace DecisionModel

structure FileId where
  index : UInt32
  deriving DecidableEq, Repr

structure FileStore where
  files : List SourceFile
  deriving DecidableEq, Repr

namespace FileStore

def empty : FileStore := ⟨[]⟩

/-- The store with one more file, and the file's name. -/
def add (store : FileStore) (file : SourceFile) : FileId × FileStore :=
  (⟨.ofNat store.files.length⟩, ⟨store.files ++ [file]⟩)

def get? (store : FileStore) (id : FileId) : Option SourceFile := store.files[id.index.toNat]?

/-- The name leads to a file. -/
def Has (store : FileStore) (id : FileId) : Prop := id.index.toNat < store.files.length

def file (store : FileStore) (id : FileId) (h : store.Has id) : SourceFile :=
  store.files.get ⟨id.index.toNat, h⟩

theorem toNat_add (store : FileStore) (file : SourceFile) :
    (store.add file).1.index.toNat = store.files.length % UInt32.size :=
  UInt32.toNat_ofNat'

theorem has_add (store : FileStore) (file : SourceFile) :
    (store.add file).2.Has (store.add file).1 := by
  rw [Has, toNat_add, add, List.length_append]
  exact Nat.lt_succ_of_le (Nat.mod_le _ _)

/-- There are names for all files. -/
def Fits (store : FileStore) : Prop := store.files.length ≤ UInt32.size

end FileStore

end DecisionModel
