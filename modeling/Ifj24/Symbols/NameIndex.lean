import Ifj24.Text.Bytes

/-!
Look-up by name through a hash of the name. Names with the same hash share a
bucket and are told apart by their bytes, so an answer never depends on which
hash is used.
-/

namespace Ifj24

abbrev NameHash := Bytes → UInt64

def NameHash.fnv1a : NameHash := fun name =>
  name.foldl (fun h b => (h ^^^ b.toUInt64) * 0x100000001b3) 0xcbf29ce484222325

structure NameIndex (α : Type) where
  buckets : List (UInt64 × List (Bytes × α))
  deriving Repr

namespace NameIndex

variable {α : Type}

def empty : NameIndex α := ⟨[]⟩

/-- The entries under a hash, the oldest first. -/
def bucket (ix : NameIndex α) (h : UInt64) : List (Bytes × α) :=
  (ix.buckets.lookup h).getD []

def find? (hash : NameHash) (ix : NameIndex α) (name : Bytes) : Option α :=
  ((ix.bucket (hash name)).find? fun entry => entry.1 == name).map Prod.snd

/-- Adds an entry at the end of the bucket of `h`, opening the bucket if it is
new. -/
def addTo (h : UInt64) (entry : Bytes × α) :
    List (UInt64 × List (Bytes × α)) → List (UInt64 × List (Bytes × α))
  | [] => [(h, [entry])]
  | (k, entries) :: rest =>
    if h == k then (k, entries ++ [entry]) :: rest else (k, entries) :: addTo h entry rest

/-- Adds a name. The caller makes sure that it is new. -/
def insert (hash : NameHash) (ix : NameIndex α) (name : Bytes) (a : α) : NameIndex α :=
  ⟨addTo (hash name) (name, a) ix.buckets⟩

end NameIndex

end Ifj24
