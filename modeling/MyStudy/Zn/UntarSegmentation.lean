import MyStudy.Zn.Untar

/-!
# Cutting an archive into pieces

What a tar stream does with a byte string does not depend on the pieces it is fed in.
-/
namespace Zn

namespace UntarStream

variable {ρ : Type}

/-- Two runs cannot be told apart: same calls of `on_write`, same end state and, as long as the
end of the archive is not reached, the same unread bytes. -/
structure SameRun (left right : (UntarStream ρ × Bytes) × List WriteCall) : Prop where
  calls : left.2 = right.2
  status : left.1.1.status = right.1.1.status
  tarInfo : left.1.1.tarInfo = right.1.1.tarInfo
  tarEndCount : left.1.1.tarEndCount = right.1.1.tarEndCount
  derived : left.1.1.derived = right.1.1.derived
  unread : left.1.1.eof = false → left.1.2 = right.1.2

/-- Whatever the class of the stream renames and wherever it starts, only the bytes count. -/
theorem sameRun_of_flatten_eq (set : SetTarInfo ρ) (s : UntarStream ρ) (pieces others : List Bytes)
    (same : pieces.flatten = others.flatten) :
    SameRun (feedAll set (s, []) pieces) (feedAll set (s, []) others) := by
  simp only [feedAll_eq_machine]
  obtain ⟨state, calls, unread⟩ :=
    (machine set).feedAll_cut_irrelevant s pieces others same
  exact ⟨calls, by rw [state], by rw [state], by rw [state], by rw [state], unread⟩

end UntarStream

open UntarStream in
/-- Both stream classes, from a new stream. -/
theorem untar_pieces_irrelevant (folderRenamePrefix : Bytes) (pieces others : List Bytes)
    (same : pieces.flatten = others.flatten) :
    SameRun (feedAll UntarStream.setTarInfo (UntarStream.init (), []) pieces)
      (feedAll UntarStream.setTarInfo (UntarStream.init (), []) others) ∧
    SameRun
      (feedAll ZimbraUntarStream.setTarInfo (ZimbraUntarStream.init folderRenamePrefix, []) pieces)
      (feedAll ZimbraUntarStream.setTarInfo
        (ZimbraUntarStream.init folderRenamePrefix, []) others) :=
  ⟨sameRun_of_flatten_eq _ _ _ _ same, sameRun_of_flatten_eq _ _ _ _ same⟩

open UntarStream in
/-- A block fed whole, and fed with an empty piece in its middle. -/
theorem untar_pieces_irrelevant_block :
    SameRun
        (feedAll UntarStream.setTarInfo (UntarStream.init (), [])
          [List.replicate 500 0, [], List.replicate 12 0])
        (feedAll UntarStream.setTarInfo (UntarStream.init (), []) [List.replicate 512 0]) ∧
      SameRun
        (feedAll ZimbraUntarStream.setTarInfo (ZimbraUntarStream.init (ascii "D"), [])
          [List.replicate 500 0, [], List.replicate 12 0])
        (feedAll ZimbraUntarStream.setTarInfo (ZimbraUntarStream.init (ascii "D"), [])
          [List.replicate 512 0]) :=
  untar_pieces_irrelevant (ascii "D") [List.replicate 500 0, [], List.replicate 12 0]
    [List.replicate 512 0] (by
      simp only [List.flatten_cons, List.flatten_nil, List.append_nil, List.nil_append,
        List.replicate_append_replicate, Nat.reduceAdd])

end Zn
