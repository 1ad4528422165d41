import Dgrid.Db.MemDB

/-! The batch of mem_batch.go. `Set` and `Delete` record operations; `write` applies them in
order through the store's `atomicSetDeleter` calls, and with `doSync` applies the last one with
the syncing call and leaves the loop there. The batch holds a pointer to its store, so the store
it writes is the one at the time of the write: here the state `write` is run on. The mutex is
left out. -/

namespace Dgrid.Db

open Go GoMap

/-- `atomicSetDeleter`, without `Mutex`. -/
structure atomicSetDeleter (σ : Type) where
  SetNoLock : σ → Bytes → Bytes → σ
  SetNoLockSync : σ → Bytes → Bytes → σ
  DeleteNoLock : σ → Bytes → σ
  DeleteNoLockSync : σ → Bytes → σ

/-- `opType`. -/
inductive opType where
  | opTypeSet
  | opTypeDelete
deriving DecidableEq, Repr

/-- `operation`. -/
structure operation where
  opType : opType
  key : Bytes
  value : Bytes
deriving DecidableEq, Repr

/-- `memBatch`: the operations recorded; its `db` is the store `write` is run on. -/
structure memBatch where
  ops : List operation

def MemDB.NewBatch (_db : MemDB) : memBatch := ⟨[]⟩

/-- The `MemDB` calls a batch of it writes through. -/
def MemDB.setDeleter : atomicSetDeleter MemDB :=
  ⟨MemDB.SetNoLock, MemDB.SetNoLockSync, MemDB.DeleteNoLock, MemDB.DeleteNoLockSync⟩

namespace memBatch

def Set (b : memBatch) (key value : Bytes) : memBatch := ⟨b.ops ++ [⟨.opTypeSet, key, value⟩]⟩

/-- `mBatch.Delete(key)`: the value recorded is nil. -/
def Delete (b : memBatch) (key : Bytes) : memBatch := ⟨b.ops ++ [⟨.opTypeDelete, key, []⟩]⟩

def Close (_b : memBatch) : memBatch := ⟨[]⟩

section Write
variable {σ : Type} (D : atomicSetDeleter σ)

/-- The `switch` on one operation, with the calls `set` and `delete`. -/
def applyOp (set : σ → Bytes → Bytes → σ) (delete : σ → Bytes → σ) (db : σ) (op : operation) : σ :=
  match op.opType with
  | .opTypeSet => set db op.key op.value
  | .opTypeDelete => delete db op.key

/-- The loop of `write` from index `i` of `n` operations. -/
def writeLoop (doSync : Bool) (n : Nat) : Nat → σ → List operation → σ
  | _, db, [] => db
  | i, db, op :: rest =>
    if doSync && i == n - 1 then applyOp D.SetNoLockSync D.DeleteNoLockSync db op
    else writeLoop doSync n (i + 1) (applyOp D.SetNoLock D.DeleteNoLock db op) rest

/-- `mBatch.write(doSync)`, on the store `db`. -/
def write (b : memBatch) (db : σ) (doSync : Bool) : σ := writeLoop D doSync b.ops.length 0 db b.ops

def Write (b : memBatch) (db : σ) : σ := b.write D db false

def WriteSync (b : memBatch) (db : σ) : σ := b.write D db true

theorem writeLoop_false (n : Nat) (rest : List operation) (i : Nat) (db : σ) :
    writeLoop D false n i db rest = rest.foldl (applyOp D.SetNoLock D.DeleteNoLock) db := by
  induction rest generalizing i db with
  | nil => rfl
  | cons op rest ih => rw [writeLoop, if_neg (by simp), ih, List.foldl_cons]

theorem writeLoop_true (n : Nat) (init : List operation) (last : operation) (i : Nat) (db : σ)
    (hi : i + init.length + 1 = n) :
    writeLoop D true n i db (init ++ [last]) =
      applyOp D.SetNoLockSync D.DeleteNoLockSync
        (init.foldl (applyOp D.SetNoLock D.DeleteNoLock) db) last := by
  induction init generalizing i db with
  | nil =>
    rw [List.length_nil] at hi
    rw [List.nil_append, writeLoop, if_pos (by simp; omega)]
    rfl
  | cons op init ih =>
    simp only [List.length_cons] at hi
    rw [List.cons_append, writeLoop, if_neg (by simp; omega), ih (i + 1) _ (by omega),
      List.foldl_cons]

theorem Write_eq (b : memBatch) (db : σ) :
    b.Write D db = b.ops.foldl (applyOp D.SetNoLock D.DeleteNoLock) db :=
  writeLoop_false D _ _ _ _

theorem WriteSync_append (init : List operation) (last : operation) (db : σ) :
    WriteSync D ⟨init ++ [last]⟩ db =
      applyOp D.SetNoLockSync D.DeleteNoLockSync
        (init.foldl (applyOp D.SetNoLock D.DeleteNoLock) db) last :=
  writeLoop_true D _ init last 0 db (by simp)

theorem WriteSync_eq_Write (hset : D.SetNoLockSync = D.SetNoLock)
    (hdel : D.DeleteNoLockSync = D.DeleteNoLock) (b : memBatch) (db : σ) :
    b.WriteSync D db = b.Write D db := by
  obtain ⟨ops⟩ := b
  rcases List.eq_nil_or_concat' ops with rfl | ⟨init, last, rfl⟩
  · rfl
  · rw [Write_eq, WriteSync_append, hset, hdel, List.foldl_append]
    rfl

end Write

theorem WriteSync_MemDB (b : memBatch) (db : MemDB) :
    b.WriteSync MemDB.setDeleter db = b.Write MemDB.setDeleter db :=
  WriteSync_eq_Write _ rfl rfl b db

end memBatch

end Dgrid.Db
