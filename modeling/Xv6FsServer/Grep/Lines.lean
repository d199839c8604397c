/-
grep's loop over its input (`grep` in grep.c).

`buf[0..m)` at the top of the loop is `carry`, and a read appends a chunk
to it. The lines in the buffer are matched and written one by one; what
is behind the last of them is moved to the front, but a buffer in which
no LF was found is dropped (`if(p == buf) m = 0`). So a read that ends
before the end of its first line loses what it read.
-/
import Xv6FsServer.Grep.Matcher

namespace Xv6FsServer.Grep

open List

def newline : UInt8 := 10

/-- The inner loop, with the `strchr` in its condition: what it writes, and
where its `p` is at the end. `line` is what `strchr` has passed since `p`;
it gives up at a NUL, the one behind the buffer or one in it. -/
def scan (pattern line : Str) : Str → List Str × Str
  | [] => ([], line)
  | b :: rest =>
    if b = 0 then ([], line ++ b :: rest)
    else if b = newline then
      let r := scan pattern [] rest
      (if matchre pattern line then (line ++ [newline]) :: r.1 else r.1, r.2)
    else scan pattern (line ++ [b]) rest

/-- `sizeof(buf)`. -/
def bufSize : Nat := 1024

/-- `if(p == buf) m = 0`, and the `memmove` of what is left. -/
def keep (b p : Str) : Str := if p.length = b.length then [] else p

/-- The outer loop. It ends when a read returns nothing, which it also
does when there is no room left. -/
def grepLoop (pattern : Str) (carry : Str) : List Str → List Str
  | [] => []
  | chunk :: reads =>
    if chunk = [] ∨ bufSize - carry.length - 1 = 0 then []
    else
      let b := carry ++ chunk
      let r := scan pattern [] b
      r.1 ++ grepLoop pattern (keep b r.2) reads

/-- What `grep(pattern, fd)` writes, line by line. -/
def grep (pattern : Str) (reads : List Str) : List Str := grepLoop pattern [] reads

/-- The input made of these lines. -/
def text (lines : List Str) : Str := lines.flatMap (· ++ [newline])

/-- Those of the lines that match, as they are to be written. -/
def matching (pattern : Str) (lines : List Str) : List Str :=
  (lines.filter (matchre pattern)).map (· ++ [newline])

variable {pattern line b x carry : Str} {lines chunks : List Str}

-- ==== one buffer

theorem scan_append {l : Str} (h0 : 0 ∉ l) (h1 : newline ∉ l) :
    scan pattern line (l ++ x) = scan pattern (line ++ l) x := by
  induction l generalizing line with
  | nil => simp
  | cons b l ih =>
    rw [mem_cons, not_or] at h0 h1
    rw [cons_append, scan, if_neg (Ne.symm h0.1), if_neg (Ne.symm h1.1),
      ih h0.2 h1.2, append_assoc, singleton_append]

theorem scan_open (pattern : Str) (h0 : 0 ∉ b) (h1 : newline ∉ b) :
    scan pattern [] b = ([], b) := by
  rw [← append_nil b, scan_append h0 h1]
  simp [scan]

/-- What is written has no NUL, and what is written and left is no more
than there was. Without a NUL in the buffer no line is left. -/
structure Scanned (b : Str) (r : List Str × Str) : Prop where
  nul : ∀ w ∈ r.1, 0 ∉ w
  bytes : r.1.flatten.length + r.2.length ≤ b.length
  left : r.2 <:+ b
  rest : 0 ∉ b → newline ∉ r.2

theorem scanned (h0 : 0 ∉ line) (h1 : newline ∉ line) :
    Scanned (line ++ b) (scan pattern line b) := by
  induction b generalizing line with
  | nil => exact ⟨by simp [scan], by simp [scan], by simp [scan], fun _ => h1⟩
  | cons c b ih =>
    unfold scan
    split
    next hc => exact ⟨by simp, by simp, by simp, fun h => by simp [hc] at h⟩
    next hc =>
      split
      next hn =>
        obtain ⟨hnul, hbytes, hleft, hrest⟩ : Scanned b (scan pattern [] b) :=
          ih not_mem_nil not_mem_nil
        refine ⟨?_, ?_, hleft.trans ⟨line ++ [c], by simp⟩,
          fun h => hrest fun hb => h (by simp [hb])⟩
        · dsimp only
          split
          next => simpa [h0, newline] using hnul
          next => exact hnul
        · dsimp only
          rw [length_append, length_cons]
          split
          next =>
            rw [flatten_cons, length_append, length_append,
              length_singleton]
            omega
          next => omega
      next hn =>
        rw [← singleton_append, ← append_assoc]
        exact ih (by simp [h0, Ne.symm hc]) (by simp [h1, Ne.symm hn])

theorem scan_spec (pattern b : Str) : Scanned b (scan pattern [] b) :=
  scanned not_mem_nil not_mem_nil

/-- The buffer ends inside the first line of the input, or behind it. -/
theorem cut_line {l : Str} (h : b ++ x = text (l :: lines)) :
    b <+: l ∨ ∃ c, b = l ++ newline :: c ∧ c ++ x = text lines := by
  rw [text, flatMap_cons, append_assoc] at h
  rcases append_eq_append_iff.mp h with ⟨c, rfl, -⟩ | ⟨c, rfl, hc⟩
  · exact Or.inl (prefix_append b c)
  · cases c with
    | nil => exact Or.inl (by simp)
    | cons d c =>
      obtain ⟨rfl, htail⟩ := cons.inj hc
      exact Or.inr ⟨c, rfl, htail.symm⟩

theorem scan_lines (h : b ++ x = text lines)
    (hl : ∀ l ∈ lines, 0 ∉ l ∧ newline ∉ l) : ∃ done rest, lines = done ++ rest
      ∧ (scan pattern [] b).1 = matching pattern done
      ∧ (scan pattern [] b).2 ++ x = text rest := by
  induction lines generalizing b with
  | nil =>
    cases (append_eq_nil_iff.mp h).1
    exact ⟨[], [], rfl, rfl, h⟩
  | cons l lines ih =>
    obtain ⟨h0, h1⟩ := hl l mem_cons_self
    rcases cut_line h with hb | ⟨c, rfl, hc⟩
    · rw [scan_open pattern (fun hm => h0 (hb.subset hm)) (fun hm => h1 (hb.subset hm))]
      exact ⟨[], l :: lines, rfl, rfl, h⟩
    · obtain ⟨done, rest, rfl, hout, hrest⟩ :=
        ih hc fun l hm => hl l (mem_cons_of_mem _ hm)
      refine ⟨l :: done, rest, rfl, ?_⟩
      rw [scan_append h0 h1, scan, if_neg (by decide), if_pos rfl, nil_append]
      refine ⟨?_, hrest⟩
      dsimp only
      rw [hout, matching, matching, filter_cons]
      split <;> rfl

-- ==== the reads

theorem keep_sublist (b p : Str) : (keep b p).Sublist p := by
  unfold keep
  split
  next => exact nil_sublist p
  next => exact List.Sublist.refl p

/-- What is written has no NUL and is no more than was read. It is less if
a read has no LF, where there is no NUL. -/
theorem grepLoop_spec (pattern carry : Str) (hne : [] ∉ chunks) :
    (∀ w ∈ grepLoop pattern carry chunks, 0 ∉ w)
      ∧ (grepLoop pattern carry chunks).flatten.length
        ≤ carry.length + chunks.flatten.length
      ∧ (newline ∉ carry → 0 ∉ carry ++ chunks.flatten → ∀ c ∈ chunks, newline ∉ c →
        (grepLoop pattern carry chunks).flatten.length
          < carry.length + chunks.flatten.length) := by
  induction chunks generalizing carry with
  | nil => simp [grepLoop]
  | cons chunk reads ih =>
    rw [mem_cons, not_or] at hne
    have hpos := length_pos_iff.mpr (Ne.symm hne.1)
    rw [flatten_cons, length_append, ← append_assoc]
    unfold grepLoop
    split
    next =>
      refine ⟨by simp, by simp, fun _ _ _ _ _ => ?_⟩
      rw [flatten_nil, length_nil]
      omega
    next =>
      have hs := scan_spec pattern (carry ++ chunk)
      have hopen := fun h0 => scan_open pattern (b := carry ++ chunk) h0
      dsimp only
      generalize scan pattern [] (carry ++ chunk) = r at hs hopen ⊢
      have hbytes := hs.bytes
      rw [length_append] at hbytes
      have hsub := keep_sublist (carry ++ chunk) r.2
      have hshort := hsub.length_le
      obtain ⟨hnul, hle, hlt⟩ := ih (keep (carry ++ chunk) r.2) hne.2
      rw [flatten_append, length_append]
      refine ⟨fun w hw => ?_, by omega, fun h1 h0 c hc hlf => ?_⟩
      · rcases mem_append.mp hw with hw | hw
        · exact hs.nul w hw
        · exact hnul w hw
      · rw [mem_append, not_or] at h0
        rcases mem_cons.mp hc with rfl | hc
        · cases hopen h0.1 (by simp [h1, hlf])
          have hdrop : keep (carry ++ c) (carry ++ c) = [] := if_pos rfl
          rw [hdrop] at hle ⊢
          rw [flatten_nil, length_nil] at *
          omega
        · have := hlt (fun hm => hs.rest h0.1 (hsub.subset hm))
            (fun hm => (mem_append.mp hm).elim
              (fun hm => h0.1 (hs.left.subset (hsub.subset hm))) h0.2) c hc hlf
          omega

theorem length_le_of_cut (hcarry : newline ∉ carry)
    (hlen : ∀ l ∈ lines, l.length ≤ 1022)
    (h : carry ++ x = text lines) : carry.length ≤ 1022 := by
  cases lines with
  | nil => simp [(append_eq_nil_iff.mp h).1]
  | cons l lines =>
    rcases cut_line h with hb | ⟨c, rfl, -⟩
    · exact hb.length_le.trans (hlen l mem_cons_self)
    · simp at hcarry

theorem nul_lines (h : ∀ l ∈ lines, 0 ∉ l) : 0 ∉ text lines := by
  intro hm
  obtain ⟨l, hl, hm⟩ := mem_flatMap.mp hm
  simp [h l hl, newline] at hm

/-- Reads that all have an LF, over lines without a NUL. -/
theorem grepLoop_lines (hcarry : newline ∉ carry)
    (hl : ∀ l ∈ lines, 0 ∉ l ∧ newline ∉ l) (hlen : ∀ l ∈ lines, l.length ≤ 1022)
    (hchunks : ∀ c ∈ chunks, newline ∈ c) (h : carry ++ chunks.flatten = text lines) :
    grepLoop pattern carry chunks = matching pattern lines := by
  induction chunks generalizing carry lines with
  | nil =>
    cases lines with
    | nil => rfl
    | cons l lines =>
      rw [flatten_nil, append_nil] at h
      rw [h] at hcarry
      simp [text] at hcarry
  | cons chunk reads ih =>
    have hlf := hchunks chunk mem_cons_self
    have hroom := length_le_of_cut hcarry hlen h
    have hgo : ¬ (chunk = [] ∨ bufSize - carry.length - 1 = 0) := by
      rintro (rfl | hfull)
      · cases hlf
      · unfold bufSize at hfull
        omega
    rw [flatten_cons, ← append_assoc] at h
    obtain ⟨done, rest, rfl, hout, hrest⟩ := scan_lines h hl
    have hs := scan_spec pattern (carry ++ chunk)
    have hp := hs.rest fun hm => nul_lines (fun l hm => (hl l hm).1)
      (h ▸ mem_append_left reads.flatten hm)
    have hkeep : keep (carry ++ chunk) _ = _ := if_neg fun he => by
      rw [hs.left.eq_of_length he] at hp
      exact hp (mem_append_right _ hlf)
    have hnext := ih hp (fun l hm => hl l (mem_append_right _ hm))
      (fun l hm => hlen l (mem_append_right _ hm))
      (fun c hc => hchunks c (mem_cons_of_mem _ hc)) hrest
    rw [grepLoop, if_neg hgo]
    dsimp only
    rw [hkeep, hnext, hout, matching, matching, matching, filter_append,
      map_append]

theorem matchre_nil (text : Str) : matchre [] text = true := by
  cases text with
  | nil => rfl
  | cons b text => rfl

/-- grep writes the lines that match, whatever the pattern, if and only if
no line has a NUL in it and every read gets an LF. -/
theorem grep_lines_iff (chunks lines : List Str) (hne : [] ∉ chunks)
    (hl : ∀ l ∈ lines, newline ∉ l) (hlen : ∀ l ∈ lines, l.length ≤ 1022)
    (h : chunks.flatten = text lines) :
    (∀ pattern, grep pattern chunks = matching pattern lines)
      ↔ (∀ l ∈ lines, 0 ∉ l) ∧ ∀ c ∈ chunks, newline ∈ c := by
  constructor
  · intro hall
    have hgrep : grepLoop [] [] chunks = lines.map (· ++ [newline]) := by
      rw [← grep, hall, matching, filter_eq_self.mpr fun l _ => matchre_nil l]
    obtain ⟨hnul, -, hless⟩ := grepLoop_spec [] [] hne
    rw [hgrep] at hnul hless
    have h0 : ∀ l ∈ lines, 0 ∉ l := fun l hm h0 =>
      hnul _ (mem_map_of_mem hm) (mem_append_left _ h0)
    refine ⟨h0, fun c hc => ?_⟩
    by_contra hlf
    have hlost := hless not_mem_nil (h ▸ nul_lines h0) c hc hlf
    rw [h, text, flatMap_def, length_nil, Nat.zero_add] at hlost
    exact Nat.lt_irrefl _ hlost
  · rintro ⟨h0, hlf⟩ pattern
    exact grepLoop_lines (by simp) (fun l hm => ⟨h0 l hm, hl l hm⟩) hlen hlf h

theorem grep_whole_line : grep [98] [[97, 98, 10]] = matching [98] [[97, 98]] :=
  (grep_lines_iff [[97, 98, 10]] [[97, 98]] (by decide) (by decide) (by decide) rfl).mpr
    (by decide) [98]

/-- The line `ab` in two reads: its first byte is lost. -/
theorem grep_cut_line : [[97], [98, 10]].flatten = text [[97, 98]]
    ∧ grep [98] [[97], [98, 10]] = [[98, 10]]
    ∧ matching [98] [[97, 98]] = [[97, 98, 10]] := by
  decide

end Xv6FsServer.Grep
