import CondRegions.Files.Tree

/-!
# Reading a tree

Reading through the host of a tree leaves the tree as it is, and gives what the tree holds. A path
names a regular file exactly if its bytes can be read (`FileTree.isFile_iff`).
-/

namespace CondRegions.FileTree

/-- An action behind one that is known. -/
theorem run_bind_of_run {α β : Type} {x : StateM FileTree α} {t t' : FileTree} {a : α}
    (h : x.run t = (a, t')) (f : α → StateM FileTree β) : (x >>= f).run t = (f a).run t' := by
  rw [StateT.run_bind, h]
  rfl

variable (t : FileTree) (path : String)

/-- The text of a file. -/
def readText : Except FileError String :=
  t.readBytes path >>= Host.decode

theorem run_readText : (FileTree.host.readText path).run t = (t.readText path, t) := rfl

theorem run_isFile : (FileTree.host.isFile path).run t = (t.isFile path, t) := rfl

variable {t path}

/-- What stands where a path leads to is a file or a directory, and only of a file are there
bytes. -/
theorem readBytes_eq_ok_iff {bytes : ByteArray} :
    t.readBytes path = .ok bytes ↔ ∃ p, t.find path = .ok (p, .file bytes) := by
  unfold readBytes
  cases hfind : t.find path with
  | error e => exact ⟨nofun, nofun⟩
  | ok found =>
    obtain ⟨p, entry⟩ := found
    cases entry with
    | directory =>
      refine ⟨nofun, ?_⟩
      rintro ⟨q, hq⟩
      cases hq
    | file content =>
      constructor
      · intro h
        obtain rfl := Except.ok.inj h
        exact ⟨p, rfl⟩
      · rintro ⟨q, hq⟩
        cases hq
        rfl

theorem isFile_iff : t.isFile path = true ↔ ∃ bytes, t.readBytes path = .ok bytes := by
  simp only [readBytes_eq_ok_iff]
  unfold isFile
  cases hfind : t.find path with
  | error e => exact ⟨nofun, nofun⟩
  | ok found =>
    obtain ⟨p, entry⟩ := found
    cases entry with
    | directory =>
      refine ⟨nofun, ?_⟩
      rintro ⟨bytes, q, hq⟩
      cases hq
    | file content => exact ⟨fun _ => ⟨content, p, rfl⟩, fun _ => rfl⟩

/-- A file can be read as text unless its bytes encode none. -/
theorem readText_of_bytes {bytes : ByteArray} (h : t.readBytes path = .ok bytes) :
    t.readText path = match String.fromUTF8? bytes with
      | some text => .ok text
      | none => .error .notText := by
  unfold readText
  rw [h]
  rfl

end CondRegions.FileTree
