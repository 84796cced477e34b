/-
The bytecode database (`crates/provider/src/database.rs`). `bytecodes` is the content of the `Bytecodes` table; MDBX may
fail to open a read or a write transaction at any time, which the environment says through `readError`, `writeError`.
Keys are never deleted.
-/
import Ress.Primitives

namespace Ress

structure RessDatabase where
  bytecodes : FMap B256 Bytecode
  readError : Option DatabaseError
  writeError : Option DatabaseError

namespace RessDatabase

def getBytecode (db : RessDatabase) (codeHash : B256) : Except DatabaseError (Option Bytecode) :=
  match db.readError with
  | some error => .error error
  | none => .ok (db.bytecodes.get codeHash)

def insertBytecode (db : RessDatabase) (codeHash : B256) (bytecode : Bytecode) :
    Except DatabaseError RessDatabase :=
  match db.writeError with
  | some error => .error error
  | none => .ok { db with bytecodes := db.bytecodes.set codeHash bytecode }

/-- the code hashes that are missing from the database; they are looked up in increasing order, which does not
matter for the set of the missing ones -/
def missingCodeHashes (db : RessDatabase) (codeHashes : Finset B256) : Except DatabaseError (Finset B256) :=
  match db.readError with
  | some error => .error error
  | none => .ok (codeHashes.filter fun codeHash => (db.bytecodes.get codeHash).isNone)

theorem insertBytecode_keys {db db' : RessDatabase} {codeHash : B256} {bytecode : Bytecode}
    (h : db.insertBytecode codeHash bytecode = .ok db') : db'.bytecodes.keys = insert codeHash db.bytecodes.keys := by
  simp only [insertBytecode] at h
  split at h
  · cases h
  · cases h; simp

theorem missingCodeHashes_cover {db : RessDatabase} {codeHashes missing : Finset B256}
    (h : db.missingCodeHashes codeHashes = .ok missing) : codeHashes ⊆ db.bytecodes.keys ∪ missing := by
  simp only [missingCodeHashes] at h
  split at h
  · cases h
  · cases h
    intro c hc
    cases hg : db.bytecodes.get c with
    | none => simp [hc, hg]
    | some b => exact Finset.mem_union_left _ (FMap.mem_keys_of_get hg)

end RessDatabase

end Ress
