/-
  RationalSpline.Proofs.TableHistory
  ──────────────────────────────────
  A TABLE IS AN ORDERED ASSOCIATION LIST.

  A table finds an entry by the position it keeps for its identity.  `Table.Indexed` says
  that an identity has the position `i` exactly if the entry at `i` has the identity; every
  request keeps that, as long as no identity is added twice and no entry is replaced by one of
  another identity.  A removal moves the later entries down, and their positions with them,
  each once.

  So a table answers every request as its list of entries does, and after any sequence of
  requests the list holds, in the order of insertion, the identities that were added and
  not removed since, each with the entry last written under it.

  An entry of another identity leaves a position behind that no removal moves, or one that is
  moved twice: the next lookup or removal may then have no answer.
-/
import RationalSpline.Table
import Mathlib.Data.List.Induction
import Mathlib.Data.List.Nodup

namespace RationalSpline

variable {ι α : Type}

/-! ## §1. Requests. -/

/-- What can be looked up in a table. -/
inductive Lookup (ι : Type) where
  /-- The entry of an identity. -/
  | find (id : ι)
  /-- The entry at a position. -/
  | entryAt (index : Nat)
  /-- The entries of a name. -/
  | named (name : String)
  /-- All entries. -/
  | list
  /-- The number of entries. -/
  | count

/-- What can be asked of a table. -/
inductive Request (ι α : Type) where
  /-- Store a curve under a new identity. -/
  | add (id : ι) (name : String) (curve : Curve α)
  /-- Give up the curve of an identity. -/
  | remove (id : ι)
  /-- Change the entry of an identity, or replace it by another. -/
  | change (id : ι) (f : Entry ι α → Entry ι α)
  /-- Look something up. -/
  | look (lookup : Lookup ι)

/-- The identity that a request adds. -/
def Request.newId? : Request ι α → Option ι
  | .add id _ _ => some id
  | _ => none

/-- The identities that are added, in order. -/
def added (requests : List (Request ι α)) : List ι := requests.filterMap Request.newId?

theorem added_concat (requests : List (Request ι α)) (r : Request ι α) :
    added (requests ++ [r]) = added requests ++ r.newId?.toList := by
  rw [added, List.filterMap_append]
  cases h : r.newId? <;> simp [added, h]

/-- An entry that the request writes has the identity under which it is written. -/
def Request.KeepsId : Request ι α → Prop
  | .change id f => ∀ e, e.id = id → (f e).id = id
  | _ => True

/-- What a request is answered with. -/
inductive Answer (ι α : Type) where
  /-- The identity of a stored curve. -/
  | id (id : ι)
  /-- The curve of an identity, if it is there. -/
  | curve (curve : Option (Curve α))
  /-- An entry, if it is there. -/
  | entry (entry : Option (Entry ι α))
  /-- Entries in order. -/
  | entries (entries : List (Entry ι α))
  /-- A number of entries. -/
  | count (n : Nat)

/-- The answers to requests, one after the other, and the state behind the last, if all of them
are answered. -/
def transcript {σ : Type} (respond : σ → Request ι α → Option (Answer ι α × σ)) (state : σ) :
    List (Request ι α) → Option (List (Answer ι α) × σ)
  | [] => some ([], state)
  | r :: requests => do
      let (answer, next) ← respond state r
      let (answers, last) ← transcript respond next requests
      return (answer :: answers, last)

theorem transcript_concat {σ : Type} {respond : σ → Request ι α → Option (Answer ι α × σ)}
    {state next last : σ} {requests : List (Request ι α)} {answers : List (Answer ι α)}
    {r : Request ι α} {answer : Answer ι α}
    (first : transcript respond state requests = some (answers, next))
    (second : respond next r = some (answer, last)) :
    transcript respond state (requests ++ [r]) = some (answers ++ [answer], last) := by
  induction requests generalizing state answers with
  | nil =>
      cases first
      simp [transcript, second]
  | cons q requests ih =>
      simp only [transcript, Option.bind_eq_bind, Option.bind_eq_some_iff, Option.pure_def,
        Option.some.injEq, Prod.mk.injEq] at first
      obtain ⟨⟨a, middle⟩, reply, ⟨rest, _⟩, replies, rfl, rfl⟩ := first
      simp [transcript, reply, ih replies]

namespace Table

variable [BEq ι] [Hashable ι]

/-- The answer to a lookup, if no position leads behind the entries. -/
def look? (table : Table ι α) : Lookup ι → Option (Answer ι α)
  | .find id => (table.seek? id).map .entry
  | .entryAt index => some (.entry (table.at? index))
  | .named name => some (.entries (table.named name))
  | .list => some (.entries table.entries)
  | .count => some (.count table.size)

/-- The answer of a table, and the table after it.  A change begins with the entry. -/
def respond (table : Table ι α) : Request ι α → Option (Answer ι α × Table ι α)
  | .add id name curve => some (.id id, table.add id name curve)
  | .remove id => (table.remove? id).map fun (curve, rest) => (.curve curve, rest)
  | .change id f => (table.seek? id).map fun entry => (.entry entry, table.modify id f)
  | .look lookup => (table.look? lookup).map fun answer => (answer, table)

/-- An edit is a change to what it makes of the curve, and tells how it went. -/
theorem edit_eq [Scalar α] [Precision α] [Analytic α] {table : Table ι α} {id : ι}
    {entry : Entry ι α} (found : table.seek? id = some (some entry)) (e : Edit α) :
    ∃ after, table.respond (.change id fun x => { x with curve := (e.apply x.curve).curve })
        = some (.entry (some entry), after)
      ∧ table.edit id e = some (e.apply entry.curve, after) := by
  refine ⟨_, by rw [respond, found]; rfl, ?_⟩
  rw [edit, find?, found]
  refine congrArg some (Prod.ext rfl ?_)
  cases position : table.positions[id]? with
  | none => simp [seek?, position] at found
  | some i =>
      have there : table.entries[i]? = some entry := by simpa [seek?, position] using found
      simp only [modify, position]
      congr 1
      refine List.ext_getElem? fun j => ?_
      rw [List.getElem?_modify, List.getElem?_modify]
      by_cases same : i = j
      · rw [← same, there]
        rfl
      · simp only [if_neg same]

end Table

/-! The same requests to a list of entries, in which an identity is searched for. -/

namespace Entries

variable [BEq ι]

/-- The first entry of an identity. -/
def find (entries : List (Entry ι α)) (id : ι) : Option (Entry ι α) :=
  entries.find? fun e => e.id == id

/-- The entries of the other identities. -/
def erase (entries : List (Entry ι α)) (id : ι) : List (Entry ι α) :=
  entries.filter fun e => e.id != id

/-- The entries with that of an identity changed. -/
def change (entries : List (Entry ι α)) (id : ι) (f : Entry ι α → Entry ι α) :
    List (Entry ι α) :=
  entries.map fun e => if e.id == id then f e else e

/-- The answer to a lookup. -/
def look (entries : List (Entry ι α)) : Lookup ι → Answer ι α
  | .find id => .entry (find entries id)
  | .entryAt index => .entry entries[index]?
  | .named name => .entries (entries.filter fun e => e.name == name)
  | .list => .entries entries
  | .count => .count entries.length

/-- The answer of a list of entries, and the list after it. -/
def respond (entries : List (Entry ι α)) : Request ι α → Answer ι α × List (Entry ι α)
  | .add id name curve => (.id id, entries ++ [⟨id, name, curve⟩])
  | .remove id => (.curve ((find entries id).map Entry.curve), erase entries id)
  | .change id f => (.entry (find entries id), change entries id f)
  | .look lookup => (look entries lookup, entries)

end Entries

/-! ## §2. Positions. -/

/-- Where all entries but one pass the test, that one is left out. -/
theorem Sequence.filter_eq_eraseIdx {β : Type} {test : β → Bool} {l : List β} {i : Nat}
    (h : ∀ j (inside : j < l.length), test l[j] = true ↔ j ≠ i) :
    l.filter test = l.eraseIdx i := by
  induction l generalizing i with
  | nil => rfl
  | cons x l ih =>
      have head := h 0 (by simp)
      cases i with
      | zero =>
          rw [List.filter_cons_of_neg (by simpa using head), List.eraseIdx_cons_zero]
          refine List.filter_eq_self.2 fun y hy => ?_
          obtain ⟨j, inside, rfl⟩ := List.mem_iff_getElem.1 hy
          exact (h (j + 1) (Nat.succ_lt_succ inside)).2 (Nat.succ_ne_zero j)
      | succ i =>
          rw [List.filter_cons_of_pos (by simpa using head), List.eraseIdx_cons_succ,
              ih fun j inside => (h (j + 1) (Nat.succ_lt_succ inside)).trans
                (not_congr Nat.succ_inj)]

namespace Table

variable [BEq ι] [Hashable ι]

/-- Each identity has the position of its entry. -/
structure Indexed (table : Table ι α) : Prop where
  /-- The entry at the position of an identity is its own, and no other is. -/
  position : ∀ (id : ι) (i : Nat), table.positions[id]? = some i
    ↔ (table.entries[i]?).map Entry.id = some id

namespace Indexed

variable {table : Table ι α}

theorem getElem?_eq (h : table.Indexed) {id : ι} {i : Nat}
    (position : table.positions[id]? = some i) : ∃ e, table.entries[i]? = some e ∧ e.id = id :=
  Option.map_eq_some_iff.1 ((h.position id i).1 position)

/-- No position is beyond the entries. -/
theorem lt_length (h : table.Indexed) {id : ι} {i : Nat}
    (position : table.positions[id]? = some i) : i < table.entries.length := by
  obtain ⟨e, entry, -⟩ := h.getElem?_eq position
  exact (List.getElem?_eq_some_iff.1 entry).1

theorem position_id (h : table.Indexed) {i : Nat} (inside : i < table.entries.length) :
    table.positions[table.entries[i].id]? = some i :=
  (h.position _ i).2 (by rw [List.getElem?_eq_getElem inside, Option.map_some])

/-- No identity has two entries. -/
theorem nodup (h : table.Indexed) : (table.entries.map Entry.id).Nodup := by
  refine List.pairwise_iff_getElem.2 fun i j hi hj lt same => ?_
  rw [List.length_map] at hi hj
  rw [List.getElem_map, List.getElem_map] at same
  have first := h.position_id hi
  rw [same, h.position_id hj] at first
  exact Nat.ne_of_gt lt (Option.some.inj first)

theorem position_eq_none_iff (h : table.Indexed) {id : ι} :
    table.positions[id]? = none ↔ id ∉ table.entries.map Entry.id := by
  rw [← not_iff_not, ← Ne, Option.ne_none_iff_exists', not_not, List.mem_iff_getElem?]
  exact exists_congr fun i => by rw [h.position, List.getElem?_map]

/-- An entry of an identity that has a position is the one there. -/
theorem id_eq_iff (h : table.Indexed) {id : ι} {i j : Nat}
    (position : table.positions[id]? = some i) (inside : j < table.entries.length) :
    table.entries[j].id = id ↔ j = i := by
  rw [← Option.some_inj, ← Option.map_some, ← List.getElem?_eq_getElem inside, ← h.position,
      position, Option.some_inj, eq_comm]

/-- Two identities are not at one position. -/
theorem ne_of_ne (h : table.Indexed) {id id' : ι} {i n : Nat} (other : id' ≠ id)
    (position : table.positions[id]? = some i) (position' : table.positions[id']? = some n) :
    n ≠ i := by
  rintro rfl
  exact other (Option.some.inj (((h.position id' n).1 position').symm.trans
    ((h.position id n).1 position)))

/-- The entries behind a gap are those of the later positions. -/
theorem mem_later_iff (h : table.Indexed) {id : ι} {i : Nat} :
    id ∈ ((table.entries.eraseIdx i).drop i).map Entry.id
      ↔ ∃ m, table.positions[id]? = some (i + m + 1) := by
  rw [List.mem_iff_getElem?]
  refine exists_congr fun m => ?_
  rw [h.position, List.getElem?_map, List.getElem?_drop, List.getElem?_eraseIdx,
      if_neg (by omega)]

/-- The entries behind a gap have different identities. -/
theorem nodup_later (h : table.Indexed) (i : Nat) :
    (((table.entries.eraseIdx i).drop i).map Entry.id).Nodup :=
  h.nodup.sublist
    (((List.drop_sublist i _).trans (List.eraseIdx_sublist table.entries i)).map Entry.id)

theorem modify (h : table.Indexed) {id : ι} {f : Entry ι α → Entry ι α}
    (keeps : ∀ e, e.id = id → (f e).id = id) : (table.modify id f).Indexed := by
  unfold Table.modify
  split
  · exact h
  · next i position =>
      refine ⟨fun id' j => (h.position id' j).trans ?_⟩
      rw [List.getElem?_modify, Option.map_eq_map, Option.map_map]
      refine iff_of_eq (congrArg (· = some id') (Option.map_congr fun e entry => ?_))
      dsimp only [Function.comp]
      split
      · next same =>
          subst same
          obtain ⟨_, there, own⟩ := h.getElem?_eq position
          cases entry.symm.trans there
          rw [own, keeps e own]
      · rfl

end Indexed

variable [LawfulBEq ι]

/-! Removal moves the positions of later entries. -/

/-- Positions moved for some entries are what they were for the others. -/
theorem getElem?_foldl_modify_of_notMem {entries : List (Entry ι α)} {id : ι}
    (other : id ∉ entries.map Entry.id) (positions : Std.HashMap ι Nat) :
    (entries.foldl (fun positions e => positions.modify e.id (· - 1)) positions)[id]?
      = positions[id]? := by
  induction entries generalizing positions with
  | nil => rfl
  | cons e entries ih =>
      rw [List.map_cons, List.mem_cons, not_or] at other
      rw [List.foldl_cons, ih other.2, Std.HashMap.getElem?_modify,
          if_neg (by simpa using Ne.symm other.1)]

/-- Each of the entries moves once. -/
theorem getElem?_foldl_modify_of_mem {entries : List (Entry ι α)} {id : ι}
    (distinct : (entries.map Entry.id).Nodup) (member : id ∈ entries.map Entry.id)
    (positions : Std.HashMap ι Nat) :
    (entries.foldl (fun positions e => positions.modify e.id (· - 1)) positions)[id]?
      = positions[id]?.map (· - 1) := by
  induction entries generalizing positions with
  | nil => simp at member
  | cons e entries ih =>
      rw [List.map_cons, List.nodup_cons] at distinct
      rw [List.foldl_cons]
      rcases List.mem_cons.1 member with rfl | member
      · rw [getElem?_foldl_modify_of_notMem distinct.1, Std.HashMap.getElem?_modify_self]
      · have other : e.id ≠ id := fun same => distinct.1 (same ▸ member)
        rw [ih distinct.2 member, Std.HashMap.getElem?_modify, if_neg (by simpa using other)]

/-- Where the entries are at different positions, none of which is the first, all of them
move. -/
theorem foldlM_lower? {entries : List (Entry ι α)} (distinct : (entries.map Entry.id).Nodup)
    {positions : Std.HashMap ι Nat} (later : ∀ e ∈ entries, positions[e.id]? ≠ some 0) :
    entries.foldlM (fun positions e => lower? positions e.id) positions
      = some (entries.foldl (fun positions e => positions.modify e.id (· - 1)) positions) := by
  induction entries generalizing positions with
  | nil => rfl
  | cons e entries ih =>
      rw [List.map_cons, List.nodup_cons] at distinct
      rw [List.foldlM_cons, lower?, if_neg (later e List.mem_cons_self), Option.bind_eq_bind,
          Option.bind_some, List.foldl_cons]
      refine ih distinct.2 fun e' he' => ?_
      have other : e.id ≠ e'.id := fun same => distinct.1 (same ▸ List.mem_map_of_mem he')
      rw [Std.HashMap.getElem?_modify, if_neg (by simpa using other)]
      exact later e' (List.mem_cons_of_mem e he')

/-- The table without the entry of an identity, which is at a position. -/
def without (table : Table ι α) (id : ι) (i : Nat) : Table ι α where
  entries := table.entries.eraseIdx i
  positions := ((table.entries.eraseIdx i).drop i).foldl
    (fun positions e => positions.modify e.id (· - 1)) (table.positions.erase id)

namespace Indexed

variable {table : Table ι α}

theorem empty : (Table.empty : Table ι α).Indexed := by
  refine ⟨fun id i => ?_⟩
  simp [Table.empty]

/-- **A table finds what a search of its entries finds.** -/
theorem seek?_eq (h : table.Indexed) (id : ι) :
    table.seek? id = some (Entries.find table.entries id) := by
  unfold seek? Entries.find
  cases position : table.positions[id]? with
  | none =>
      have absent := h.position_eq_none_iff.1 position
      refine congrArg some (List.find?_eq_none.2 fun e he own => absent ?_).symm
      rw [← eq_of_beq own]
      exact List.mem_map_of_mem he
  | some i =>
      obtain ⟨e, entry, own⟩ := h.getElem?_eq position
      obtain ⟨inside, rfl⟩ := List.getElem?_eq_some_iff.1 entry
      show (table.entries[i]?).map some = _
      rw [entry]
      refine congrArg some (List.find?_eq_some_iff_getElem.2
        ⟨by simpa using own, i, inside, rfl, fun j lt => ?_⟩).symm
      -- an earlier entry of the identity would have its position
      rw [Bool.not_eq_true', beq_eq_false_iff_ne]
      exact fun same => Nat.ne_of_lt lt ((h.id_eq_iff position (Nat.lt_trans lt inside)).1 same)

/-! ## §3. Changes keep the positions. -/

/-- A new identity has the position behind the others. -/
theorem add (h : table.Indexed) {id : ι} (fresh : id ∉ table.entries.map Entry.id)
    (name : String) (curve : Curve α) : (table.add id name curve).Indexed := by
  refine ⟨fun id' i => ?_⟩
  show (table.positions.insert id table.entries.length)[id']? = some i
    ↔ ((table.entries ++ [⟨id, name, curve⟩])[i]?).map Entry.id = some id'
  rw [Std.HashMap.getElem?_insert]
  rcases Nat.lt_trichotomy i table.entries.length with before | rfl | behind
  · rw [List.getElem?_append_left before]
    split
    · next same =>
        obtain rfl := eq_of_beq same
        rw [← h.position, h.position_eq_none_iff.2 fresh]
        simpa using Nat.ne_of_gt before
    · exact h.position id' i
  · have last := h.position id' table.entries.length
    rw [List.getElem?_eq_none (Nat.le_refl _)] at last
    rw [List.getElem?_concat_length]
    split
    · next same => simpa using eq_of_beq same
    · next other =>
        refine last.trans (iff_of_false nofun fun own => other ?_)
        exact beq_iff_eq.2 (Option.some.inj own)
  · have last := h.position id' i
    rw [List.getElem?_eq_none (Nat.le_of_lt behind)] at last
    rw [List.getElem?_eq_none (by rw [List.length_append]; exact behind)]
    split
    · simpa using Nat.ne_of_lt behind
    · exact last

/-- One entry changes. -/
theorem entries_modify (h : table.Indexed) (id : ι) (f : Entry ι α → Entry ι α) :
    (table.modify id f).entries = Entries.change table.entries id f := by
  unfold Table.modify Entries.change
  split
  · next position =>
      have absent := h.position_eq_none_iff.1 position
      have same : ∀ e ∈ table.entries, (if e.id == id then f e else e) = e := fun e he => by
        rw [if_neg]
        exact fun own => absent (eq_of_beq own ▸ List.mem_map_of_mem he)
      rw [List.map_congr_left same, List.map_id']
  · next i position =>
      refine List.ext_getElem (by simp) fun j hj hj' => ?_
      rw [List.length_map] at hj'
      rw [List.getElem_modify, List.getElem_map]
      by_cases same : i = j
      · rw [if_pos same, if_pos (beq_iff_eq.2 ((h.id_eq_iff position hj').2 same.symm))]
      · rw [if_neg same, if_neg]
        exact fun own => same ((h.id_eq_iff position hj').1 (eq_of_beq own)).symm

/-- A removal of an identity with a position has a result. -/
theorem remove?_eq (h : table.Indexed) {id : ι} {i : Nat}
    (position : table.positions[id]? = some i) :
    table.remove? id = some ((Entries.find table.entries id).map Entry.curve,
      table.without id i) := by
  obtain ⟨entry, there, -⟩ := h.getElem?_eq position
  have found := h.seek?_eq id
  simp only [seek?, position, there, Option.map_some, Option.some_inj] at found
  -- a later entry is not at the first position
  have later : ∀ e ∈ (table.entries.eraseIdx i).drop i,
      (table.positions.erase id)[e.id]? ≠ some 0 := fun e member first => by
    obtain ⟨m, place⟩ := h.mem_later_iff.1 (List.mem_map_of_mem member)
    rw [Std.HashMap.getElem?_erase] at first
    split at first
    · cases first
    · rw [place, Option.some_inj] at first
      omega
  simp only [remove?, position, there, foldlM_lower? (h.nodup_later i) later, ← found,
    Option.bind_eq_bind, Option.bind_some, Option.pure_def, Option.map_some, without]

theorem entries_without (h : table.Indexed) {id : ι} {i : Nat}
    (position : table.positions[id]? = some i) :
    (table.without id i).entries = Entries.erase table.entries id := by
  refine (Sequence.filter_eq_eraseIdx fun j hj => ?_).symm
  rw [bne_iff_ne]
  exact not_congr (h.id_eq_iff position hj)

/-- **A removal moves exactly the later positions**, each by one. -/
theorem getElem?_positions_without (h : table.Indexed) {id id' : ι} {i : Nat}
    (other : id' ≠ id) :
    (table.without id i).positions[id']?
      = (table.positions[id']?).map fun n => if i < n then n - 1 else n := by
  have erased : (table.positions.erase id)[id']? = table.positions[id']? := by
    rw [Std.HashMap.getElem?_erase, if_neg (by simpa using Ne.symm other)]
  unfold without
  by_cases member : id' ∈ ((table.entries.eraseIdx i).drop i).map Entry.id
  · obtain ⟨m, place⟩ := h.mem_later_iff.1 member
    rw [getElem?_foldl_modify_of_mem (h.nodup_later i) member, erased, place, Option.map_some,
        Option.map_some, if_pos (by omega)]
  · rw [getElem?_foldl_modify_of_notMem member, erased]
    cases place : table.positions[id']? with
    | none => rfl
    | some n =>
        have before : ¬i < n := fun lt => member (h.mem_later_iff.2 ⟨n - i - 1, by
          rw [place, show i + (n - i - 1) + 1 = n by omega]⟩)
        rw [Option.map_some, if_neg before]

/-- The removed identity has no position. -/
theorem getElem?_positions_without_self (h : table.Indexed) {id : ι} {i : Nat}
    (position : table.positions[id]? = some i) : (table.without id i).positions[id]? = none := by
  have absent : id ∉ ((table.entries.eraseIdx i).drop i).map Entry.id := by
    intro member
    obtain ⟨m, same⟩ := h.mem_later_iff.1 member
    rw [position, Option.some_inj] at same
    omega
  unfold without
  rw [getElem?_foldl_modify_of_notMem absent, Std.HashMap.getElem?_erase_self]

theorem without (h : table.Indexed) {id : ι} {i : Nat}
    (position : table.positions[id]? = some i) : (table.without id i).Indexed := by
  refine ⟨fun id' j => ?_⟩
  have entry : (((table.without id i).entries)[j]?).map Entry.id = some id'
      ↔ table.positions[id']? = some (if j < i then j else j + 1) := by
    rw [h.position]
    unfold Table.without
    rw [List.getElem?_eraseIdx]
    split <;> rfl
  rw [entry]
  by_cases own : id' = id
  · subst own
    rw [h.getElem?_positions_without_self position, position]
    refine iff_of_false nofun fun same => ?_
    have := Option.some.inj same
    split at this <;> omega
  · rw [h.getElem?_positions_without own]
    cases place : table.positions[id']? with
    | none => exact iff_of_false nofun nofun
    | some n =>
        have apart := h.ne_of_ne own position place
        rw [Option.map_some, Option.some_inj, Option.some_inj]
        split <;> split <;> omega

/-- **Every removal has a result**: the curve of the identity, and a table of the other
entries. -/
theorem exists_remove? (h : table.Indexed) (id : ι) :
    ∃ rest, table.remove? id = some ((Entries.find table.entries id).map Entry.curve, rest)
      ∧ rest.Indexed ∧ rest.entries = Entries.erase table.entries id := by
  cases position : table.positions[id]? with
  | none =>
      have absent := h.position_eq_none_iff.1 position
      have nothing : Entries.find table.entries id = none := by
        have found := h.seek?_eq id
        rw [seek?, position] at found
        exact (Option.some_inj.1 found).symm
      refine ⟨table, by rw [remove?, position, nothing]; rfl, h, ?_⟩
      refine (List.filter_eq_self.2 fun e he => ?_).symm
      rw [bne_iff_ne]
      exact fun own => absent (own ▸ List.mem_map_of_mem he)
  | some i =>
      exact ⟨_, h.remove?_eq position, h.without position, h.entries_without position⟩

theorem look?_eq (h : table.Indexed) (lookup : Lookup ι) :
    table.look? lookup = some (Entries.look table.entries lookup) := by
  cases lookup with
  | find id => rw [look?, h.seek?_eq]; rfl
  | entryAt index => rfl
  | named name => rfl
  | list => rfl
  | count => rfl

/-- **A table answers a request as its entries do**, and keeps its positions. -/
theorem respond (h : table.Indexed) {r : Request ι α}
    (fresh : ∀ id ∈ r.newId?, id ∉ table.entries.map Entry.id) (keeps : r.KeepsId) :
    ∃ next, table.respond r = some ((Entries.respond table.entries r).1, next)
      ∧ next.Indexed ∧ next.entries = (Entries.respond table.entries r).2 := by
  cases r with
  | add id name curve => exact ⟨_, rfl, h.add (fresh id rfl) name curve, rfl⟩
  | remove id =>
      obtain ⟨rest, result, indexed, entries⟩ := h.exists_remove? id
      exact ⟨rest, by rw [Table.respond, result]; rfl, indexed, entries⟩
  | change id f =>
      exact ⟨_, by rw [Table.respond, h.seek?_eq]; rfl, h.modify keeps, h.entries_modify id f⟩
  | look lookup => exact ⟨table, by rw [Table.respond, h.look?_eq]; rfl, h, rfl⟩

end Indexed

end Table

/-! ## §4. What a history leaves. -/

/-- An identity was added and not removed since. -/
def Kept (history : List (Request ι α)) (id : ι) : Prop :=
  ∃ before name curve after,
    history = before ++ .add id name curve :: after ∧ .remove id ∉ after

theorem Kept.concat {history : List (Request ι α)} {id : ι} (h : Kept history id)
    {r : Request ι α} (other : .remove id ≠ r) : Kept (history ++ [r]) id := by
  obtain ⟨before, name, curve, after, rfl, kept⟩ := h
  exact ⟨before, name, curve, after ++ [r], by simp, by simp [kept, other]⟩

section History

variable [BEq ι]

/-- What stands under an identity after a request, by what stood there before. -/
def Request.write (id : ι) (entry : Option (Entry ι α)) : Request ι α → Option (Entry ι α)
  | .add id' name curve => if id' == id then some ⟨id', name, curve⟩ else entry
  | .remove id' => if id' == id then none else entry
  | .change id' f => if id' == id then entry.map f else entry
  | .look _ => entry

/-- The entry that was last written under an identity. -/
def written (history : List (Request ι α)) (id : ι) : Option (Entry ι α) :=
  history.foldl (Request.write id) none

/-- The entries that were added and not removed since, in the order of their addition. -/
def live (history : List (Request ι α)) : List (Entry ι α) :=
  (added history).filterMap (written history)

theorem written_concat (history : List (Request ι α)) (r : Request ι α) (id : ι) :
    written (history ++ [r]) id = r.write id (written history id) :=
  List.foldl_concat ..

variable [LawfulBEq ι]

/-- An entry is written under its own identity. -/
theorem id_of_written {history : List (Request ι α)} (keeps : ∀ r ∈ history, r.KeepsId)
    {id : ι} {e : Entry ι α} (h : written history id = some e) : e.id = id := by
  induction history using List.reverseRecOn generalizing e with
  | nil => cases h
  | append_singleton history r ih =>
      have before := fun {e} => ih (e := e) fun q hq => keeps q (List.mem_append_left _ hq)
      have keep := keeps r (by simp)
      rw [written_concat] at h
      cases r with
      | add id' name curve =>
          rw [Request.write] at h
          split at h
          · next same =>
              cases h
              exact eq_of_beq same
          · exact before h
      | remove id' =>
          rw [Request.write] at h
          split at h
          · cases h
          · exact before h
      | change id' f =>
          rw [Request.write] at h
          split at h
          · next same =>
              obtain ⟨old, there, rfl⟩ := Option.map_eq_some_iff.1 h
              cases eq_of_beq same
              exact keep old (before there)
          · exact before h
      | look lookup => exact before h

/-- Nothing is written under an identity that is not added. -/
theorem written_eq_none {history : List (Request ι α)} {id : ι} (h : id ∉ added history) :
    written history id = none := by
  induction history using List.reverseRecOn with
  | nil => rfl
  | append_singleton history r ih =>
      rw [added_concat, List.mem_append, not_or] at h
      rw [written_concat, ih h.1]
      cases r with
      | add id' name curve =>
          refine if_neg fun same => h.2 ?_
          rw [eq_of_beq same]
          exact List.mem_singleton_self id
      | remove id' => exact ite_self _
      | change id' f => exact ite_self _
      | look lookup => rfl

/-- The entries that a request leaves are those that are live after it. -/
theorem live_concat {history : List (Request ι α)} (keeps : ∀ r ∈ history, r.KeepsId)
    {r : Request ι α} (fresh : ∀ id ∈ r.newId?, id ∉ added history) :
    live (history ++ [r]) = (Entries.respond (live history) r).2 := by
  have all : live (history ++ [r]) = (added history ++ r.newId?.toList).filterMap
      fun id => r.write id (written history id) := by
    rw [live, added_concat]
    exact List.filterMap_congr fun id _ => written_concat history r id
  -- an addition puts one entry behind the others, every other request works on the entries
  rw [all, List.filterMap_append]
  cases r with
  | add id name curve =>
      have others : ∀ k ∈ added history,
          Request.write k (written history k) (.add id name curve) = written history k := by
        intro k hk
        refine if_neg fun same => fresh id rfl ?_
        rwa [eq_of_beq same]
      rw [List.filterMap_congr others]
      simp [Entries.respond, live, Request.newId?, Request.write]
  | remove id =>
      refine (List.append_nil _).trans ?_
      rw [Entries.respond, Entries.erase, live, List.filter_filterMap]
      refine List.filterMap_congr fun k _ => ?_
      rw [Request.write]
      cases entry : written history k with
      | none => exact ite_self _
      | some e =>
          rw [Option.filter_some, id_of_written keeps entry]
          by_cases same : id = k
          · rw [if_pos (beq_iff_eq.2 same), if_neg (by simpa using same.symm)]
          · rw [if_neg (by simpa using same), if_pos (by simpa using Ne.symm same)]
  | change id f =>
      refine (List.append_nil _).trans ?_
      rw [Entries.respond, Entries.change, live, List.map_filterMap]
      refine List.filterMap_congr fun k _ => ?_
      rw [Request.write]
      cases entry : written history k with
      | none => exact ite_self _
      | some e =>
          rw [Option.map_some, Option.map_some, id_of_written keeps entry]
          by_cases same : id = k
          · rw [if_pos (beq_iff_eq.2 same), if_pos (beq_iff_eq.2 same.symm)]
          · rw [if_neg (by simpa using same), if_neg (by simpa using Ne.symm same)]
  | look lookup => exact List.append_nil _

theorem mem_added_of_live {history : List (Request ι α)} (keeps : ∀ r ∈ history, r.KeepsId)
    {id : ι} (h : id ∈ (live history).map Entry.id) : id ∈ added history := by
  obtain ⟨e, member, rfl⟩ := List.mem_map.1 h
  obtain ⟨k, hk, entry⟩ := List.mem_filterMap.1 member
  rwa [id_of_written keeps entry]

/-- A search among entries that are found by their identities. -/
theorem Entries.find_filterMap {ids : List ι} {f : ι → Option (Entry ι α)} {id : ι}
    (own : ∀ k e, f k = some e → e.id = k) (absent : id ∉ ids → f id = none) :
    Entries.find (ids.filterMap f) id = f id := by
  induction ids with
  | nil => exact (absent List.not_mem_nil).symm
  | cons k ids ih =>
      by_cases same : k = id
      · subst same
        cases entry : f k with
        | none => rw [List.filterMap_cons_none entry, ih fun _ => entry, entry]
        | some e =>
            rw [List.filterMap_cons_some entry]
            exact List.find?_cons_of_pos (beq_iff_eq.2 (own k e entry))
      · have rest := ih fun other => absent (by simpa [Ne.symm same] using other)
        cases entry : f k with
        | none => rw [List.filterMap_cons_none entry, rest]
        | some e =>
            rw [List.filterMap_cons_some entry, ← rest]
            exact List.find?_cons_of_neg (by simpa [own k e entry] using same)

/-- **The live entry of an identity is the one last written under it.** -/
theorem find_live {history : List (Request ι α)} (keeps : ∀ r ∈ history, r.KeepsId) (id : ι) :
    Entries.find (live history) id = written history id :=
  Entries.find_filterMap (fun _ _ => id_of_written keeps) written_eq_none

/-- What is written stays until it is removed. -/
theorem isSome_foldl_write {requests : List (Request ι α)} {id : ι} {entry : Option (Entry ι α)}
    (h : entry.isSome = true) (kept : .remove id ∉ requests) :
    (requests.foldl (Request.write id) entry).isSome = true := by
  induction requests generalizing entry with
  | nil => exact h
  | cons r requests ih =>
      rw [List.mem_cons, not_or] at kept
      refine ih ?_ kept.2
      cases r with
      | add id' name curve =>
          rw [Request.write]
          split
          · rfl
          · exact h
      | remove id' =>
          rw [Request.write, if_neg]
          · exact h
          · exact fun same => kept.1 (congrArg _ (eq_of_beq same).symm)
      | change id' f =>
          rw [Request.write]
          split
          · rwa [Option.isSome_map]
          · exact h
      | look lookup => exact h

theorem kept_of_isSome_written {history : List (Request ι α)} {id : ι}
    (h : (written history id).isSome = true) : Kept history id := by
  induction history using List.reverseRecOn with
  | nil => cases h
  | append_singleton history r ih =>
      rw [written_concat] at h
      cases r with
      | add id' name curve =>
          rw [Request.write] at h
          split at h
          · next same =>
              rw [eq_of_beq same]
              exact ⟨history, name, curve, [], rfl, List.not_mem_nil⟩
          · exact (ih h).concat nofun
      | remove id' =>
          rw [Request.write] at h
          split at h
          · cases h
          · next other =>
              refine (ih h).concat fun same => other ?_
              cases same
              exact beq_self_eq_true _
      | change id' f =>
          rw [Request.write] at h
          split at h
          · exact (ih (by rwa [Option.isSome_map] at h)).concat nofun
          · exact (ih h).concat nofun
      | look lookup => exact (ih h).concat nofun

/-- **Something is written under an identity exactly if it was added and not removed since.** -/
theorem isSome_written_iff (history : List (Request ι α)) (id : ι) :
    (written history id).isSome = true ↔ Kept history id := by
  refine ⟨kept_of_isSome_written, ?_⟩
  rintro ⟨before, name, curve, after, rfl, kept⟩
  rw [written, List.foldl_append, List.foldl_cons]
  refine isSome_foldl_write ?_ kept
  rw [Request.write, if_pos (beq_self_eq_true id)]
  rfl

end History

/-! ## §5. Tables from the beginning. -/

namespace Table

variable [BEq ι] [LawfulBEq ι] [Hashable ι]

/-- **Every history leaves a table of its live entries**, and the table has answered it as
the list of its entries would. -/
theorem exists_transcript {history : List (Request ι α)} (distinct : (added history).Nodup)
    (keeps : ∀ r ∈ history, r.KeepsId) :
    ∃ answers table, transcript respond (empty : Table ι α) history = some (answers, table)
      ∧ transcript (fun entries r => some (Entries.respond entries r)) [] history
        = some (answers, live history)
      ∧ table.Indexed ∧ table.entries = live history := by
  induction history using List.reverseRecOn with
  | nil => exact ⟨[], empty, rfl, rfl, .empty, rfl⟩
  | append_singleton history r ih =>
      rw [added_concat] at distinct
      have keeps' : ∀ q ∈ history, q.KeepsId := fun q hq => keeps q (List.mem_append_left _ hq)
      obtain ⟨answers, table, first, ofList, indexed, entries⟩ :=
        ih distinct.of_append_left keeps'
      have fresh : ∀ id ∈ r.newId?, id ∉ added history := fun id new old =>
        List.disjoint_of_nodup_append distinct old (Option.mem_toList.2 new)
      obtain ⟨next, reply, indexed', entries'⟩ := indexed.respond
        (fun id new old => fresh id new (mem_added_of_live keeps' (entries ▸ old)))
        (keeps r (by simp))
      rw [entries, ← live_concat keeps' fresh] at entries'
      refine ⟨_, next, transcript_concat first reply, transcript_concat ofList ?_, indexed',
        entries'⟩
      rw [entries, live_concat keeps' fresh]

/-- A table holds what a history leaves. -/
structure Represents (table : Table ι α) (history : List (Request ι α)) : Prop where
  /-- An identity has the entry last written under it, and no position leads beyond the
  entries. -/
  seek : ∀ id, table.seek? id = some (written history id)
  /-- It has one exactly if it was added and not removed since. -/
  found : ∀ id, (table.find? id).isSome = true ↔ Kept history id
  /-- The entries are the live ones, in the order of their addition. -/
  entries : table.entries = live history
  /-- The positions count them in that order. -/
  entryAt : ∀ i, table.at? i = (live history)[i]?
  /-- Those of a name come in that order. -/
  named : ∀ name, table.named name = (live history).filter fun e => e.name == name
  /-- Their number. -/
  size : table.size = (live history).length
  /-- A removal gives the curve of a live entry, and leaves the others in their order. -/
  removed : ∀ id, ∃ rest,
    table.remove? id = some ((written history id).map Entry.curve, rest)
      ∧ rest.entries = (live history).filter fun e => e.id != id
  /-- Every position is that of an entry. -/
  bound : ∀ (id : ι) (i : Nat), table.positions[id]? = some i → i < table.entries.length

/-- **A table is an ordered association list.**  Where no identity is added twice and every
entry that is written has the identity under which it is written, a table answers every
sequence of requests as a list of entries does, and at every moment it holds what the requests
up to then leave. -/
theorem represents_of_nodup_added {history : List (Request ι α)}
    (distinct : (added history).Nodup) (keeps : ∀ r ∈ history, r.KeepsId) :
    ∀ before, before <+: history → ∃ answers table,
      transcript respond (empty : Table ι α) before = some (answers, table)
        ∧ transcript (fun entries r => some (Entries.respond entries r)) [] before
          = some (answers, live before)
        ∧ table.Represents before := by
  intro before part
  have distinct' : (added before).Nodup :=
    distinct.sublist (part.sublist.filterMap Request.newId?)
  have keeps' : ∀ r ∈ before, r.KeepsId := fun r hr => keeps r (part.subset hr)
  obtain ⟨answers, table, result, ofList, indexed, entries⟩ := exists_transcript distinct' keeps'
  have seek : ∀ id, table.seek? id = some (written before id) := fun id => by
    rw [indexed.seek?_eq, entries, find_live keeps']
  refine ⟨answers, table, result, ofList, ?_⟩
  exact
    { seek
      found := fun id => by rw [find?, seek, Option.join_some, isSome_written_iff]
      entries
      entryAt := fun i => by rw [at?, entries]
      named := fun name => by rw [named, entries]
      size := by rw [size, entries]
      removed := fun id => by
        obtain ⟨rest, removed, -, others⟩ := indexed.exists_remove? id
        rw [entries, find_live keeps'] at removed
        exact ⟨rest, removed, by rw [others, entries, Entries.erase]⟩
      bound := fun _ _ => indexed.lt_length }

/-- A straight line across the parameter `x`. -/
def line (x : Rat) : Curve Rat where
  dimension := 2
  order := 2
  points := .cartesian [[x, 0], [x, 1]]
  knots := ⟨[0, 1]⟩

/-- Three lines, the first of which is removed and the second of which is moved. -/
def lines : List (Request Nat Rat) :=
  [.add 0 "a" (line 0), .add 1 "b" (line 1), .add 2 "b" (line 2), .remove 0, .look (.find 2),
    .change 1 fun e => { e with curve := line 5 }, .remove 0, .look (.entryAt 0)]

/-- The lines behind the removed one are found under their identities, in order. -/
theorem represents_lines :
    (added lines).Nodup ∧ (∀ r ∈ lines, r.KeepsId)
      ∧ ∃ table, transcript respond empty lines
          = some ([.id 0, .id 1, .id 2, .curve (some (line 0)), .entry (some ⟨2, "b", line 2⟩),
            .entry (some ⟨1, "b", line 1⟩), .curve none, .entry (some ⟨1, "b", line 5⟩)], table)
        ∧ table.entries = [⟨1, "b", line 5⟩, ⟨2, "b", line 2⟩]
        ∧ table.seek? 2 = some (some ⟨2, "b", line 2⟩) := by
  have distinct : (added lines).Nodup := by decide
  have keeps : ∀ r ∈ lines, r.KeepsId := by
    simp [lines, Request.KeepsId]
  obtain ⟨answers, table, result, ofList, holds⟩ :=
    represents_of_nodup_added distinct keeps lines (List.prefix_refl lines)
  cases ofList
  exact ⟨distinct, keeps, table, result, holds.entries, holds.seek 2⟩

/-- Three lines, the last of which is replaced by an entry from elsewhere before the first is
removed. -/
def swapped : List (Request Nat Rat) :=
  [.add 0 "a" (line 0), .add 1 "b" (line 1), .add 2 "b" (line 2),
    .change 2 fun _ => ⟨7, "x", line 7⟩, .remove 0, .look (.find 2)]

/-- The entry that was last written under 2 is not found: its position has not moved. -/
theorem respond_swapped :
    (added swapped).Nodup ∧ Kept swapped 2 ∧ written swapped 2 = some ⟨7, "x", line 7⟩
      ∧ transcript respond empty swapped = none := by
  refine ⟨by decide, (isSome_written_iff swapped 2).1 rfl, rfl, ?_⟩
  simp [swapped, transcript, respond, look?, add, remove?, seek?, modify, lower?, empty,
    Std.HashMap.getElem?_insert, Std.HashMap.getElem_insert, Std.HashMap.getElem_modify,
    Std.HashMap.getElem_erase]

end Table

end RationalSpline
