import Mathlib.Data.Finset.Card
import CustLib.Lib.LittleEndian
import CustLib.Std.HashmapRefine
import CustLib.Std.Str

/-!
# `tests/string_map.c`: a hash map keyed by string views

The key of the map is a `struct cstd_str`, whose bytes are a pointer and a length. The default hash
and equality would tell views apart that show the same bytes at two places, so the map is given
`strview_hash` and `strview_eq`, which follow the pointer. What the pointers point to does not change
while the map lives.

The equality of what two views show is an equivalence relation and implies equal hashes, so the map
refines a finite map from strings, and the loop that counts words is right whatever the views, the
memory and the allocator are (`wordCount_correct`).
-/

namespace CustLib.StringKeys

open CustLib.Hashmap
open CustLib.Assoc (find overwrite find_eq_none overwrite_perm find_overwrite
  find_cons)
open CustLib.LittleEndian (toLe ofLe ofLe_toLe)
open CustLib.Str (strEq strEq_iff)

/-! ## The functions of the source

`strview_hash`, `strview_eq` and the loop of `test_string_keyed_word_count`, over a memory of bytes. A
key of the map is the sixteen bytes of a `struct cstd_str`, little-endian; a count is an `i32` in four
bytes.
-/

/-- The pointer and the length of a `struct cstd_str`. -/
def viewOf (key : Bytes 16) : Nat × Nat := (ofLe (key.toList.take 8), ofLe (key.toList.drop 8))

/-- What a view shows. -/
def content (mem : Nat → UInt8) (key : Bytes 16) : List UInt8 :=
  (List.range (viewOf key).2).map fun i => mem (wadd (viewOf key).1 i)

def hashBytesAt (l : List UInt8) : UInt64 := stdHashBytes (⟨l.toArray, rfl⟩ : Bytes l.toArray.size)

def strviewHash (mem : Nat → UInt8) (key : Bytes 16) : UInt64 := hashBytesAt (content mem key)

def strviewEq (mem : Nat → UInt8) (a b : Bytes 16) : Bool := strEq (content mem a) (content mem b)

def counts (mem : Nat → UInt8) : Map 16 4 :=
  newIn 8 4 (some (strviewHash mem)) (some (strviewEq mem))

/-- The body of its loop; `false` is the failed assertion of the insertion. A count that is there is
    incremented in its slot. -/
def countWord (m : Map 16 4) (key : Bytes 16) (a : Alloc) :
    Option (Bool × Map 16 4 × Alloc) := do
  match (← get m key) with
  | some idx =>
    let n ← m.arrays.values[idx]?
    let values ← store m.arrays.values idx (toLe 4 (ofLe n.toList + 1))
    return (true, { m with arrays := { m.arrays with values } }, a)
  | none => insert m key (toLe 4 1) a

def wordCount (m : Map 16 4) (a : Alloc) : List (Bytes 16) → Option (Bool × Map 16 4 × Alloc)
  | []          => some (true, m, a)
  | key :: keys => do
    let (ok, m, a) ← countWord m key a
    if !ok then
      return (false, m, a)
    wordCount m a keys

/-! ## The contract of the map

The two functions are fit for a map: the equality is an equivalence relation, since it compares what the
views show, and it implies equal hashes.
-/

section Contract

variable (mem : Nat → UInt8)

theorem strviewEq_iff {a b : Bytes 16} :
    strviewEq mem a b = true ↔ content mem a = content mem b := strEq_iff

theorem strviewEq_equivalence : Equivalence fun a b => strviewEq mem a b = true where
  refl _     := (strviewEq_iff mem).mpr rfl
  symm h     := (strviewEq_iff mem).mpr ((strviewEq_iff mem).mp h).symm
  trans h h' := (strviewEq_iff mem).mpr (((strviewEq_iff mem).mp h).trans ((strviewEq_iff mem).mp h'))

/-- Views that show the same have the same hash. -/
theorem strviewHash_eq (a b : Bytes 16) (h : strviewEq mem a b = true) :
    strviewHash mem a = strviewHash mem b := by
  rw [strviewHash, strviewHash, (strviewEq_iff mem).mp h]

end Contract

/-! ## One word

The body of the loop finds the count of the word and increments it in place, or inserts the count 1. In
the finite map that is an overwrite, a new entry, or nothing where there is no memory.
-/

variable {mem : Nat → UInt8} {m : Map 16 4} {l : List (Bytes 16 × Bytes 4)} {key : Bytes 16}

def Holds (mem : Nat → UInt8) (m : Map 16 4) (l : List (Bytes 16 × Bytes 4)) : Prop :=
  Models (strviewHash mem) (strviewEq mem) m l

inductive Counted (mem : Nat → UInt8) (l : List (Bytes 16 × Bytes 4)) (key : Bytes 16) :
    Bool → List (Bytes 16 × Bytes 4) → Prop
  | again {e} : find (strviewEq mem) l key = some e →
      Counted mem l key true (overwrite (strviewEq mem) l key (toLe 4 (ofLe e.2.toList + 1)))
  | first : find (strviewEq mem) l key = none → Counted mem l key true ((key, toLe 4 1) :: l)
  | refused : find (strviewEq mem) l key = none → Counted mem l key false l

/-- **Step lemma.** A word is counted in the finite map, or the map has no room for it. -/
theorem countWord_spec (h : Holds mem m l) (key : Bytes 16) (a : Alloc) :
    ∃ ok m' a' l', countWord m key a = some (ok, m', a') ∧ Counted mem l key ok l' ∧
      Holds mem m' l' := by
  have heq := strviewEq_equivalence mem
  obtain ⟨r, hget, hsome, hnone⟩ := get_spec h.wf key
  cases r with
  | some idx =>
      -- the count is incremented in its slot
      obtain ⟨-, e, he, hkey⟩ := hsome idx rfl
      obtain ⟨-, -, hvalue⟩ := Arrays.entry_eq_some.mp he
      have hfind : find (strviewEq mem) l key = some e := h.found heq he hkey
      obtain ⟨values, rest, hstore, hw, hold, hnew⟩ :=
        overwrite_spec h.wf he (toLe 4 (ofLe e.2.toList + 1))
      rw [h.keyEq] at hkey
      refine ⟨true, { m with arrays := { m.arrays with values } }, a, _, ?_, .again hfind, ?_⟩
      · simp [countWord, hget, hvalue, hstore]
      · have hperm := h.entries.symm.trans hold
        exact h.types hw ⟨rfl, rfl⟩
          (hnew.trans (overwrite_perm heq h.distinct hperm hkey _).symm) (h.distinct.overwrite key _)
  | none =>
      have habsent : Absent m key := (hnone rfl).resolve_left (by decide)
      have hfind : find (strviewEq mem) l key = none :=
        find_eq_none (h.absent (strviewHash_eq mem) habsent)
      obtain ⟨r, m', a', hr, hw, ht, hins⟩ := insertMove_spec h.wf key (toLe 4 1) none none a
      obtain ⟨⟨l', hspec, hl'⟩, -, -, -⟩ := (insertMoved_simulates heq (strviewHash_eq mem) h hw ht
        hins (insertMove_excused hr)).insert
      refine ⟨r.ok, m', a', l', by simp [countWord, hget, Hashmap.insert, hr], ?_, hl'⟩
      generalize r.ok = ok at hspec
      cases hspec with
      | insert_old hold => exact absurd (hold.symm.trans hfind) (Option.some_ne_none _)
      | insert_new hnew => exact .first hnew
      | insert_fails hnew => exact .refused hnew

/-! ## The counts

`Tally` says that the finite map holds the counts of the words seen so far. It is kept by both cases of
the loop body.
-/

def countOf (n : Nat) : Option (Bytes 4) := if n = 0 then none else some (toLe 4 n)

/-- The finite map counts what the views of `words` show. -/
structure Tally (mem : Nat → UInt8) (words : List (List UInt8)) (l : List (Bytes 16 × Bytes 4)) :
    Prop where
  count : ∀ key, (find (strviewEq mem) l key).map Prod.snd = countOf (words.count (content mem key))
  size  : l.length = words.toFinset.card

theorem tally_nil : Tally mem [] [] := ⟨fun _ => rfl, rfl⟩

/-- One more word is counted under one content. -/
theorem count_concat (words : List (List UInt8)) (key key' : Bytes 16) :
    (words ++ [content mem key]).count (content mem key') =
      words.count (content mem key') + if strviewEq mem key key' then 1 else 0 := by
  rw [List.count_append, List.count_singleton]
  congr 1
  exact if_congr (beq_iff_eq.trans (strviewEq_iff mem).symm) rfl rfl

/-- A word that is found has been counted before. -/
theorem Tally.mem_iff {words : List (List UInt8)} (h : Tally mem words l) (key : Bytes 16) :
    content mem key ∈ words ↔ (find (strviewEq mem) l key).isSome := by
  have hcount := congrArg Option.isSome (h.count key)
  rw [Option.isSome_map] at hcount
  rw [hcount, ← List.count_pos_iff, countOf]
  split <;> simp [Nat.pos_iff_ne_zero, *]

/-- A word that was there counts once more. -/
theorem Tally.again {words : List (List UInt8)} (h : Tally mem words l) {e : Bytes 16 × Bytes 4}
    (hfind : find (strviewEq mem) l key = some e) (hlen : words.length < 2 ^ 31) :
    Tally mem (words ++ [content mem key])
      (overwrite (strviewEq mem) l key (toLe 4 (ofLe e.2.toList + 1))) := by
  have heq := strviewEq_equivalence mem
  have hmem : content mem key ∈ words := (h.mem_iff key).mpr (by simp [hfind])
  have hpos : words.count (content mem key) ≠ 0 := (List.count_pos_iff.mpr hmem).ne'
  have hnumber : ofLe e.2.toList = words.count (content mem key) := by
    have hcount := h.count key
    rw [hfind, countOf, if_neg hpos] at hcount
    have hle := List.count_le_length (a := content mem key) (l := words)
    rw [Option.some.inj hcount, ofLe_toLe (by omega)]
  constructor
  case count =>
    intro key'
    rw [find_overwrite heq, count_concat, hnumber]
    cases hkey : strviewEq mem key key' with
    | true =>
        have hsame : content mem key = content mem key' := (strviewEq_iff mem).mp hkey
        obtain ⟨e', he'⟩ : ∃ e', find (strviewEq mem) l key' = some e' :=
          Option.isSome_iff_exists.mp ((h.mem_iff key').mp (hsame ▸ hmem))
        rw [he', hsame]
        rfl
    | false => exact h.count key'
  case size =>
    rw [overwrite, List.length_map, h.size, List.toFinset_append]
    have hsub : [content mem key].toFinset ⊆ words.toFinset := by simpa using hmem
    rw [Finset.union_eq_left.mpr hsub]

/-- A new word counts once. -/
theorem Tally.first {words : List (List UInt8)} (h : Tally mem words l)
    (hfind : find (strviewEq mem) l key = none) :
    Tally mem (words ++ [content mem key]) ((key, toLe 4 1) :: l) := by
  have hmem : content mem key ∉ words := fun hmem => by
    have := (h.mem_iff key).mp hmem
    simp [hfind] at this
  constructor
  case count =>
    intro key'
    rw [find_cons, count_concat]
    cases hkey : strviewEq mem key key' with
    | true =>
        have hsame : content mem key = content mem key' := (strviewEq_iff mem).mp hkey
        rw [← hsame, List.count_eq_zero.mpr hmem]
        rfl
    | false => exact h.count key'
  case size =>
    rw [List.length_cons, h.size, List.toFinset_append]
    have hdisjoint : Disjoint words.toFinset [content mem key].toFinset := by simpa using hmem
    rw [Finset.card_union_of_disjoint hdisjoint]
    rfl

/-! ## All words

The loop stops at the first insertion that fails. Up to there the map is a tally of the words, and
afterwards every lookup gives the count of its content.
-/

def contents (mem : Nat → UInt8) (keys : List (Bytes 16)) : List (List UInt8) :=
  keys.map (content mem)

/-- **Run lemma.** The loop counts a prefix of the words, and all of them if no insertion fails. -/
theorem wordCount_tally (keys done : List (Bytes 16)) (h : Holds mem m l)
    (htally : Tally mem (contents mem done) l) (hlen : done.length + keys.length < 2 ^ 31)
    (a : Alloc) : ∃ ok counted m' a' l', wordCount m a keys = some (ok, m', a') ∧
      counted <+: keys ∧ (ok = true ↔ counted = keys) ∧ Holds mem m' l' ∧
        Tally mem (contents mem (done ++ counted)) l' := by
  induction keys generalizing done m l a with
  | nil => exact ⟨true, [], m, a, l, rfl, List.prefix_rfl, by simp, h, by simpa using htally⟩
  | cons key keys ih =>
      rw [List.length_cons] at hlen
      have hshort : (contents mem done).length < 2 ^ 31 := by
        rw [contents, List.length_map]
        omega
      obtain ⟨ok, m₁, a₁, l₁, hword, hcounted, h₁⟩ := countWord_spec h key a
      have hgo : ok = true → Tally mem (contents mem (done ++ [key])) l₁ := by
        rintro rfl
        rw [contents, List.map_append]
        cases hcounted with
        | again hfind => exact htally.again hfind hshort
        | first hfind => exact htally.first hfind
      cases ok with
      | true =>
          have hlen' : (done ++ [key]).length + keys.length < 2 ^ 31 := by
            rw [List.length_append, List.length_singleton]
            omega
          obtain ⟨ok, counted, m', a', l', hrest, hfront, hall, hl', htally'⟩ :=
            ih (done ++ [key]) h₁ (hgo rfl) hlen' a₁
          refine ⟨ok, key :: counted, m', a', l', ?_, (List.prefix_cons_inj key).mpr hfront, ?_, hl',
            by simpa using htally'⟩
          · simp [wordCount, hword, hrest]
          · simpa using hall
      | false =>
          cases hcounted
          refine ⟨false, [], m₁, a₁, l, ?_, List.nil_prefix, by simp, h₁, by simpa using htally⟩
          simp [wordCount, hword]

/-- **Words are counted**: whatever memory the views show, and whatever the allocator refuses, the loop
    ends with the counts of the words up to the first insertion that failed. -/
theorem wordCount_correct (mem : Nat → UInt8) (keys : List (Bytes 16)) (hlen : keys.length < 2 ^ 31)
    (a : Alloc) : ∃ ok counted m a', wordCount (counts mem) a keys = some (ok, m, a') ∧
      counted <+: keys ∧ (ok = true ↔ counted = keys) ∧
        m.len = (contents mem counted).toFinset.card ∧
          ∀ key, exec m a' (.get key) =
              some (.value (countOf ((contents mem counted).count (content mem key))), m, a') ∧
            contains m key = some (decide (content mem key ∈ contents mem counted)) := by
  have heq := strviewEq_equivalence mem
  have hnew : Holds mem (counts mem) [] := ⟨wf_newIn 8 4 _ _, .refl _, .nil, rfl, rfl⟩
  obtain ⟨ok, counted, m, a', l, hrun, hfront, hall, hl, htally⟩ :=
    wordCount_tally keys [] hnew tally_nil (by simpa using hlen) a
  rw [List.nil_append] at htally
  refine ⟨ok, counted, m, a', hrun, hfront, hall, ?_, fun key => ⟨?_, ?_⟩⟩
  · rw [hl.wf.len_eq, hl.entries.length_eq, htally.size]
  · have hcount := htally.count key
    obtain ⟨r, hget, hsome, hnone⟩ := get_spec hl.wf key
    cases r with
    | some j =>
        obtain ⟨-, e, he, hkey⟩ := hsome j rfl
        rw [hl.found heq he hkey, Option.map_some] at hcount
        rw [← hcount]
        exact exec_get_some hget (Arrays.entry_eq_some.mp he).2.2
    | none =>
        have habsent : Absent m key := (hnone rfl).resolve_left (by decide)
        rw [find_eq_none (hl.absent (strviewHash_eq mem) habsent), Option.map_none] at hcount
        rw [← hcount]
        exact exec_get_none hget
  · obtain ⟨b, hb, htrue, hfalse⟩ := contains_spec hl.wf key
    rw [hb]
    congr 1
    rw [Bool.eq_iff_iff, decide_eq_true_iff, htally.mem_iff key]
    cases b with
    | true =>
        obtain ⟨j, e, he, hkey⟩ := htrue rfl
        simp [hl.found heq he hkey]
    | false => simp [find_eq_none (hl.absent (strviewHash_eq mem) (hfalse rfl))]

/-- Memory with the strings `ab` at 0, `b` at 1, and `ab` at 8. -/
def twoStrings (i : Nat) : UInt8 := if i = 0 ∨ i = 8 then 97 else 98

def viewAt (ptr len : Nat) : Bytes 16 := toLe 8 ptr ++ toLe 8 len

theorem wordCount_correct_same_word :
    contents twoStrings [viewAt 0 2, viewAt 1 1, viewAt 8 2] = [[97, 98], [98], [97, 98]] ∧
      ∃ ok counted m a', wordCount (counts twoStrings) ⟨fun _ => false, fun _ _ => 0, 0, []⟩
          [viewAt 0 2, viewAt 1 1, viewAt 8 2] = some (ok, m, a') ∧
        counted <+: [viewAt 0 2, viewAt 1 1, viewAt 8 2] ∧
          (ok = true ↔ counted = [viewAt 0 2, viewAt 1 1, viewAt 8 2]) ∧
            m.len = (contents twoStrings counted).toFinset.card ∧
              ∀ key, exec m a' (.get key) =
                  some (.value (countOf
                    ((contents twoStrings counted).count (content twoStrings key))), m, a') ∧
                contains m key =
                  some (decide (content twoStrings key ∈ contents twoStrings counted)) :=
  ⟨by decide +kernel, wordCount_correct twoStrings _ (by decide) _⟩

end CustLib.StringKeys
