import Mathlib.Data.List.Basic

/-!
# A cursor in a file

A file is a list, of which a cursor has an offset; the offset may be past the end.  Reading gives
what follows the cursor, writing replaces it or extends the file, and a gap that is written over is
filled with the default value.
-/

/-- A file, with the offset of the next element to be read or written. -/
structure Cursor (α : Type) where
  content : List α
  offset : ℕ

namespace Cursor

variable {α : Type} {c : Cursor α} {data more seg : List α} {n : ℕ}

/-- What is still to be read. -/
def rest (c : Cursor α) : List α := c.content.drop c.offset

def moveTo (c : Cursor α) (n : ℕ) : Cursor α := { c with offset := n }

/-- The cursor after `n` elements that have been read. -/
def pass (c : Cursor α) (n : ℕ) : Cursor α := c.moveTo (c.offset + n)

@[simp] theorem content_moveTo (c : Cursor α) (n : ℕ) : (c.moveTo n).content = c.content := rfl

@[simp] theorem offset_moveTo (c : Cursor α) (n : ℕ) : (c.moveTo n).offset = n := rfl

@[simp] theorem content_pass (c : Cursor α) (n : ℕ) : (c.pass n).content = c.content := rfl

@[simp] theorem offset_pass (c : Cursor α) (n : ℕ) : (c.pass n).offset = c.offset + n := rfl

@[simp] theorem moveTo_offset (c : Cursor α) : c.moveTo c.offset = c := rfl

theorem rest_pass (c : Cursor α) (n : ℕ) : (c.pass n).rest = c.rest.drop n := by
  rw [rest, rest, List.drop_drop]
  rfl

/-- What has been read is the front of what there was. -/
theorem rest_pass_of_append (h : c.rest = seg ++ data) : (c.pass seg.length).rest = data := by
  rw [rest_pass, h, List.drop_left]

section Write

variable [Inhabited α]

/-- `content`, with `data` at `offset`. -/
def overwrite (content : List α) (offset : ℕ) (data : List α) : List α :=
  if data = [] then content
  else
    (content ++ List.replicate (offset - content.length) default).take offset ++ data ++
      content.drop (offset + data.length)

def write (c : Cursor α) (data : List α) : Cursor α :=
  ⟨overwrite c.content c.offset data, c.offset + data.length⟩

@[simp] theorem write_nil (c : Cursor α) : c.write [] = c := by
  simp [write, overwrite]

@[simp] theorem offset_write (c : Cursor α) (data : List α) :
    (c.write data).offset = c.offset + data.length := rfl

/-- Two writes that follow each other are one. -/
theorem write_write (c : Cursor α) (data more : List α) :
    (c.write data).write more = c.write (data ++ more) := by
  by_cases hdata : data = []
  · simp [hdata]
  by_cases hmore : more = []
  · simp [hmore]
  have hlength : ((c.content ++ List.replicate (c.offset - c.content.length) default).take
      c.offset).length = c.offset := by
    rw [List.length_take, List.length_append, List.length_replicate]
    omega
  have hboth : data ++ more ≠ [] := by simp [hdata]
  simp only [write, overwrite, hdata, hmore, hboth, if_false, Cursor.mk.injEq, List.length_append]
  refine ⟨?_, by omega⟩
  generalize (c.content ++ List.replicate (c.offset - c.content.length) default).take c.offset =
    front at hlength
  have hfront : (front ++ data).length = c.offset + data.length := by
    rw [List.length_append, hlength]
  rw [← hfront, List.append_assoc (front ++ data), List.take_left, List.drop_append,
    List.drop_eq_nil_of_le (by omega), List.nil_append, List.drop_drop, hfront,
    List.append_assoc front]
  congr 2
  omega

end Write

end Cursor
