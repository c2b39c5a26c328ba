import PieceLedger.Proofs.Bencode.Reading

/-!
# The bytes of a value

A value keeps the way in which it is written, so the bytes that write it are its
encoding.  They write nothing else at the same depth, whatever stands around
them.  `Writes` finds a value of a document at its place in a buffer.
-/

namespace PieceLedger.Bencode

open Decimal

/-! ## Written forms are encodings -/

theorem Spells.encode_eq {w : Bytes} {t : Text} (h : Spells w t) : t.encode = w := by
  obtain @⟨digits, content, hne, hdigits, hvalue⟩ := h
  rw [Text.encode, ← hvalue, ← List.append_assoc, superfluous_append_write hne hdigits]

mutual

theorem Object.encode_eq {depth : Nat} {w : Bytes} {v : Value} (h : Object depth w v) :
    v.encode = w := by
  match h with
  | .text _ spelled => rw [Value.encode, spelled.encode_eq]
  | .integer _ spelled => rw [Value.encode, ← spellsInt_iff.mp spelled]
  | .list _ items => rw [Value.encode, items.encode_eq]
  | .dict _ entries _ => rw [Value.encode, entries.encode_eq]

theorem Items.encode_eq {depth : Nat} {w : Bytes} {items : List Value} (h : Items depth w items) :
    encodeItems items = w := by
  match h with
  | .nil => rw [encodeItems]
  | .cons object others => rw [encodeItems, object.encode_eq, others.encode_eq]

theorem Entries.encode_eq {depth : Nat} {w : Bytes} {entries : Dict} (h : Entries depth w entries) :
    encodeEntries entries = w := by
  match h with
  | .nil => rw [encodeEntries]
  | .cons spelled object others =>
      rw [encodeEntries, spelled.encode_eq, object.encode_eq, others.encode_eq]

end

theorem Object.unique {depth : Nat} {w : Bytes} {v other : Value} (first : Object depth w v)
    (second : Object depth w other) : v = other := by
  have read : readValue w.length (2 * w.length) depth (w ++ []) = .ok (v, []) :=
    first.read (Nat.le_refl _) (Nat.le_refl _) []
  rw [second.read (Nat.le_refl _) (Nat.le_refl _) []] at read
  cases read
  rfl

theorem Document.encode_eq {w : Bytes} {entries : Dict} (h : Document w entries) :
    (Value.dict entries).encode = w := by
  obtain ⟨written, -⟩ := h
  rw [Value.encode, written.encode_eq]

/-! ## Entries -/

theorem Entries.append {depth : Nat} {u w : Bytes} {earlier later : Dict}
    (first : Entries depth u earlier) (second : Entries depth w later) :
    Entries depth (u ++ w) (earlier ++ later) := by
  induction earlier generalizing u with
  | nil =>
      cases first
      exact second
  | cons entry earlier ih =>
      cases first with
      | cons spelled object others =>
          rw [List.append_assoc, List.append_assoc]
          exact .cons spelled object (ih others)

theorem Entries.split {depth : Nat} {w : Bytes} {earlier later : Dict}
    (h : Entries depth w (earlier ++ later)) :
    ∃ u v, w = u ++ v ∧ Entries depth u earlier ∧ Entries depth v later := by
  induction earlier generalizing w with
  | nil => exact ⟨[], w, rfl, .nil, h⟩
  | cons entry earlier ih =>
      cases h with
      | cons spelled object others =>
          obtain ⟨u, v, rfl, first, second⟩ := ih others
          exact ⟨_, v, by simp only [List.append_assoc], .cons spelled object first, second⟩

theorem keys_append (earlier later : Dict) : keys (earlier ++ later) = keys earlier ++ keys later :=
  List.map_append

theorem not_mem_of_nodup {earlier later : Dict} {name : Text} {v : Value}
    (distinct : (keys (earlier ++ (name, v) :: later)).Nodup) (entry : Text × Value)
    (same : entry.1.bytes = name.bytes) : entry ∉ earlier ∧ entry ∉ later := by
  rw [keys_append, List.nodup_append] at distinct
  obtain ⟨-, behind, apart⟩ := distinct
  have known {others : Dict} (h : entry ∈ others) : name.bytes ∈ keys others :=
    same ▸ List.mem_map_of_mem h
  constructor
  · intro h
    exact apart _ (known h) _ (List.mem_cons_self ..) rfl
  · intro h
    exact (List.nodup_cons.mp behind).1 (known h)

theorem find?_append_cons {earlier later : Dict} {name : Text} {v : Value}
    (distinct : (keys (earlier ++ (name, v) :: later)).Nodup) :
    Dict.find? (earlier ++ (name, v) :: later) name.bytes = some v := by
  have found : List.find? (fun entry => entry.1.bytes = name.bytes)
      (earlier ++ (name, v) :: later) = some (name, v) := by
    refine List.find?_eq_some_iff_append.mpr ⟨by simp, earlier, later, rfl, ?_⟩
    intro entry h
    have other : entry.1.bytes ≠ name.bytes := fun same => (not_mem_of_nodup distinct _ same).1 h
    simpa using other
  rw [Dict.find?, found, Option.map_some]

theorem exists_append_of_find? {entries : Dict} {key : Bytes} {v : Value}
    (h : entries.find? key = some v) :
    ∃ earlier name later, entries = earlier ++ (name, v) :: later ∧ name.bytes = key := by
  obtain ⟨⟨name, w⟩, found, rfl⟩ := Option.map_eq_some_iff.mp h
  obtain ⟨same, earlier, later, rfl, -⟩ := List.find?_eq_some_iff_append.mp found
  exact ⟨earlier, name, later, rfl, of_decide_eq_true same⟩

theorem Dict.dict?_eq_some {entries info : Dict} {name : Bytes} :
    entries.dict? name = some info ↔ entries.find? name = some (.dict info) := by
  rw [Dict.dict?]
  split
  case h_1 found => simp [found]
  case h_2 other => simpa using other info

/-! ## Values of a document -/

/-- The document at the front of `buffer` has the key `key`, and `span`, which stands
behind `front`, writes its value `v`. -/
inductive Writes (buffer key front span : Bytes) (v : Value) : Prop
  | intro {before u after rest : Bytes} {name : Text} {earlier later : Dict} :
      Entries 1 before earlier → Spells u name → Object 1 span v → Entries 1 after later →
      (keys (earlier ++ (name, v) :: later)).Nodup → name.bytes = key →
      front = 100 :: (before ++ u) → buffer = front ++ (span ++ (after ++ 101 :: rest)) →
      Writes buffer key front span v

namespace Writes

variable {buffer key front span : Bytes} {v : Value}

theorem document (h : Writes buffer key front span v) :
    ∃ w earlier name later, w <+: buffer ∧ Document w (earlier ++ (name, v) :: later) ∧
      name.bytes = key ∧ front = 100 :: (encodeEntries earlier ++ name.encode) ∧
      span = v.encode := by
  obtain @⟨before, u, after, rest, name, earlier, later, first, spelled, object, second, distinct,
    named, rfl, rfl⟩ := h
  have written := first.append (.cons spelled object second)
  refine ⟨_, earlier, name, later, ⟨rest, ?_⟩, .intro written distinct, named, ?_,
    object.encode_eq.symm⟩
  · simp only [List.cons_append, List.append_assoc, List.nil_append]
  · rw [first.encode_eq, spelled.encode_eq]

theorem of_document {w : Bytes} {entries : Dict} (front : w <+: buffer) (h : Document w entries)
    (found : entries.find? key = some v) : ∃ front span, Writes buffer key front span v := by
  obtain ⟨written, distinct⟩ := h
  obtain ⟨rest, rfl⟩ := front
  obtain ⟨earlier, name, later, rfl, named⟩ := exists_append_of_find? found
  obtain ⟨before, behind, rfl, first, others⟩ := written.split
  cases others with
  | @cons _ u span after _ _ _ spelled object second =>
      have shape : 100 :: (before ++ (u ++ (span ++ after)) ++ [101]) ++ rest =
          100 :: (before ++ u) ++ (span ++ (after ++ 101 :: rest)) := by
        simp only [List.cons_append, List.append_assoc, List.nil_append]
      exact ⟨_, _, .intro first spelled object second distinct named rfl shape⟩

theorem find? (h : Writes buffer key front span v) :
    ∃ entries, decode buffer = .ok entries ∧ entries.find? key = some v := by
  obtain ⟨w, earlier, name, later, begins, document, rfl, -, -⟩ := h.document
  refine ⟨_, decode_eq_ok.mpr ⟨w, begins, document⟩, find?_append_cons ?_⟩
  obtain ⟨-, distinct⟩ := document
  exact distinct

theorem span_eq (h : Writes buffer key front span v) : span = v.encode := by
  obtain ⟨-, -, object, -⟩ := h
  exact object.encode_eq.symm

theorem value_unique {buffer' key' front' : Bytes} {v' : Value} (h : Writes buffer key front span v)
    (h' : Writes buffer' key' front' span v') : v = v' := by
  obtain ⟨-, -, object, -⟩ := h
  obtain ⟨-, -, object', -⟩ := h'
  exact object.unique object'

theorem unique {front' span' : Bytes} {v' : Value} (h : Writes buffer key front span v)
    (h' : Writes buffer key front' span' v') : front = front' ∧ span = span' ∧ v = v' := by
  obtain ⟨w, earlier, name, later, begins, document, rfl, rfl, rfl⟩ := h.document
  obtain ⟨w', earlier', name', later', begins', document', named, rfl, rfl⟩ := h'.document
  obtain ⟨-, same⟩ := document.unique begins begins' document'
  obtain ⟨-, distinct⟩ := document
  obtain ⟨notEarlier, notLater⟩ := not_mem_of_nodup distinct (name', v') named
  obtain ⟨rfl, heq, -⟩ := (List.append_cons_inj_of_notMem notEarlier notLater).mp same
  cases heq
  exact ⟨rfl, rfl, rfl⟩

end Writes

end PieceLedger.Bencode
