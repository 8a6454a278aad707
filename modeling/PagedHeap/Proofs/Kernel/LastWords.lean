import PagedHeap.Proofs.Kernel.Sending

/-!
# Last words are complete

A process that aborts says why in one line.  The line names addresses and sizes, which are words,
so it is short enough for the buffer in which it is put together, however many pieces it is written
in; and every character of it is one byte.  So what is sent is the line and its end, whole, and an
outlet that takes something of every write receives just that, before the process ends.
-/

namespace PagedHeap

/-! ## Short texts -/

/-- The text has at most `n` characters, and each of them is a single byte. -/
structure Brief (text : String) (n : Nat) : Prop where
  length_le : text.toList.length ≤ n
  single : ∀ c ∈ text.toList, c.utf8Size = 1

namespace Brief

variable {s t : String} {m n : Nat}

/-- Of a text that is given, this can be seen. -/
theorem of_all (hlength : s.toList.length ≤ n)
    (hall : s.toList.all (fun c => c.utf8Size == 1) = true) : Brief s n :=
  ⟨hlength, fun c hc => eq_of_beq (List.all_eq_true.1 hall c hc)⟩

theorem mono (h : Brief s m) (hle : m ≤ n) : Brief s n := ⟨Nat.le_trans h.length_le hle, h.single⟩

theorem append (hs : Brief s m) (ht : Brief t n) : Brief (s ++ t) (m + n) where
  length_le := by
    rw [String.toList_append, List.length_append]
    exact Nat.add_le_add hs.length_le ht.length_le
  single c hc := by
    rw [String.toList_append, List.mem_append] at hc
    exact hc.elim (hs.single c) (ht.single c)

/-- The end of a line is one byte more. -/
theorem ended (h : Brief s n) : Brief (s ++ "\n") (n + 1) :=
  h.append (.of_all (by decide) (by decide))

/-- The bytes of such a text in UTF-8 are its characters, one by one. -/
theorem utf8_eq (h : Brief s n) : s.toUTF8.data.toList = s.toList.map Char.toUInt8 := by
  have hencoded : s.toUTF8.data.toList = s.toList.flatMap String.utf8EncodeChar := by
    rw [String.toUTF8, ← String.utf8Encode_toList, List.utf8Encode, List.data_toByteArray]
  have hsingle : s.toList.map String.utf8EncodeChar = s.toList.map fun c => [c.toUInt8] :=
    List.map_congr_left fun c hc => String.utf8EncodeChar_eq_singleton (h.single c hc)
  rw [hencoded, List.flatMap_def, hsingle, ← List.flatMap_def, ← List.map_eq_flatMap]

end Brief

theorem utf8Size_digitChar (d : Nat) : d.digitChar.utf8Size = 1 := by
  rcases Nat.lt_or_ge d 16 with hlt | hge
  · revert d
    decide
  · rw [← Nat.star_eq_digitChar.2 hge]
    rfl

/-- Digits are single bytes. -/
theorem utf8Size_of_mem_toDigits {base : Nat} (hbase : 1 < base) (n : Nat) :
    ∀ c ∈ Nat.toDigits base n, c.utf8Size = 1 := by
  induction n using Nat.strongRecOn with
  | ind n ih =>
      intro c hc
      rw [Nat.toDigits_eq_if hbase] at hc
      split at hc
      · rw [List.mem_singleton.1 hc]
        exact utf8Size_digitChar n
      · rename_i hlarge
        rcases List.mem_append.1 hc with hfront | hlast
        · exact ih (n / base) (Nat.div_lt_self (by omega) hbase) c hfront
        · rw [List.mem_singleton.1 hlast]
          exact utf8Size_digitChar _

/-- A word has at most twenty decimal digits. -/
theorem brief_toString {n : Nat} (hword : n < Word.limit) : Brief (toString n) 20 := by
  have hdigits : (toString n).toList = Nat.toDigits 10 n := by
    rw [Nat.toString_eq_repr, Nat.repr_eq_ofList_toDigits, String.toList_ofList]
  have hpower : n < 10 ^ 20 := Nat.lt_trans hword (by decide)
  refine ⟨?_, ?_⟩
  · rw [hdigits]
    exact (Nat.length_toDigits_le_iff (by decide) (by decide)).2 hpower
  · rw [hdigits]
    exact utf8Size_of_mem_toDigits (by decide) n

/-- A word has at most sixteen hexadecimal digits. -/
theorem brief_addressText {n : Nat} (hword : n < Word.limit) : Brief (addressText n) 18 := by
  have hdigits : Brief (String.ofList (Nat.toDigits 16 n)) 16 := by
    refine ⟨?_, ?_⟩
    · rw [String.toList_ofList]
      exact (Nat.length_toDigits_le_iff (by decide) (by decide)).2 hword
    · rw [String.toList_ofList]
      exact utf8Size_of_mem_toDigits (by decide) n
  exact (Brief.of_all (by decide) (by decide)).append hdigits

/-! ## Lines -/

namespace Corruption

/-- The numbers that a corruption names. -/
def fields : Corruption → List Nat
  | badCategory run category => [run, category]
  | misalignedBlock address size => [address, size]
  | counterUnderflow run => [run]
  | sizeMismatch address given actual => [address, given, actual]
  | unknownLargePointer address => [address]
  | reentrantLock => []

/-- A corruption that names words has a short text. -/
theorem brief_message {fault : Corruption} (hwords : ∀ n ∈ fault.fields, n < Word.limit) :
    Brief fault.message 104 := by
  cases fault with
  | badCategory run category =>
      have hrun := brief_addressText (hwords run (by simp [fields]))
      have hcategory := brief_toString (hwords category (by simp [fields]))
      have hfront : Brief "run at " 7 := .of_all (by decide) (by decide)
      have hmiddle : Brief " holds category " 16 := .of_all (by decide) (by decide)
      have hend : Brief ", expected at most 6" 20 := .of_all (by decide) (by decide)
      exact ((((hfront.append hrun).append hmiddle).append hcategory).append hend).mono (by decide)
  | misalignedBlock address size =>
      have haddress := brief_addressText (hwords address (by simp [fields]))
      have hsize := brief_toString (hwords size (by simp [fields]))
      have hfront : Brief "pointer " 8 := .of_all (by decide) (by decide)
      have hmiddle : Brief " is not on a " 13 := .of_all (by decide) (by decide)
      have hend : Brief "-byte block boundary" 20 := .of_all (by decide) (by decide)
      exact ((((hfront.append haddress).append hmiddle).append hsize).append hend).mono (by decide)
  | counterUnderflow run =>
      have hrun := brief_addressText (hwords run (by simp [fields]))
      have hfront : Brief "live-block counter of run at " 29 := .of_all (by decide) (by decide)
      have hend : Brief " went below zero" 16 := .of_all (by decide) (by decide)
      exact ((hfront.append hrun).append hend).mono (by decide)
  | sizeMismatch address given actual =>
      have haddress := brief_addressText (hwords address (by simp [fields]))
      have hgiven := brief_toString (hwords given (by simp [fields]))
      have hactual := brief_toString (hwords actual (by simp [fields]))
      have hfront : Brief "free of " 8 := .of_all (by decide) (by decide)
      have hmiddle : Brief " claims " 8 := .of_all (by decide) (by decide)
      have hnext : Brief " bytes but only " 16 := .of_all (by decide) (by decide)
      have hend : Brief " are allocated" 14 := .of_all (by decide) (by decide)
      exact ((((((hfront.append haddress).append hmiddle).append hgiven).append hnext).append
        hactual).append hend)
  | unknownLargePointer address =>
      have haddress := brief_addressText (hwords address (by simp [fields]))
      have hend : Brief " is not a live large allocation" 31 := .of_all (by decide) (by decide)
      exact (haddress.append hend).mono (by decide)
  | reentrantLock => exact .of_all (by decide) (by decide)

end Corruption

/-- The text of a lack of memory is short as well. -/
theorem AllocError.brief_outOfMemory {size : Nat} (hword : size < Word.limit) :
    Brief (AllocError.outOfMemory size).message 51 := by
  have hsize := brief_toString hword
  have hfront : Brief "out of memory allocating " 25 := .of_all (by decide) (by decide)
  have hend : Brief " bytes" 6 := .of_all (by decide) (by decide)
  exact (hfront.append hsize).append hend

/-- A short line fits the buffer with its end, in whatever pieces it is written. -/
theorem Brief.chars_writeAll {line : String} {n : Nat} (h : Brief line n)
    (hroom : n < reportCapacity) {pieces : List (List Char)}
    (hpieces : pieces.flatten = line.toList) :
    ((BoundedText.empty : BoundedText reportCapacity).writeAll (pieces ++ [['\n']])).chars =
      (line ++ "\n").toList := by
  have hwritten : (pieces ++ [['\n']]).flatten = (line ++ "\n").toList := by
    rw [List.flatten_append, hpieces, String.toList_append]
    rfl
  rw [BoundedText.chars_writeAll, hwritten]
  exact List.take_of_length_le (Nat.le_trans h.ended.length_le hroom)

/-- The text that is sent is the line of the report and its end, if the line is short. -/
theorem Ending.reportText_eq {e : Ending} {opening message : String} {n : Nat}
    (hreport : e.report? = some [opening, message]) (hbrief : Brief (opening ++ message) n)
    (hroom : n < reportCapacity) :
    e.reportText = (opening ++ message ++ "\n").toList := by
  have hpieces : ([opening, message].map String.toList).flatten = (opening ++ message).toList := by
    rw [String.toList_append]
    exact congrArg (opening.toList ++ ·) (List.append_nil _)
  rw [reportText, hreport]
  exact hbrief.chars_writeAll hroom hpieces

/-! ## What is received -/

/-- A process that ends by `death` says `line`, and all of it, and so does one that reports to
another outlet. -/
structure Kernel.LastWords {α : Type} (death : Action Kernel α) (e : Ending) (line : String) :
    Prop where
  /-- The report goes to standard error. -/
  reports : death = standardError.abort e
  /-- The buffer has room for the line and its end, in whatever pieces the line is written. -/
  held : ∀ pieces : List (List Char), pieces.flatten = line.toList →
    ((BoundedText.empty : BoundedText reportCapacity).writeAll (pieces ++ [['\n']])).chars =
      e.reportText
  /-- What is sent is the line and its end. -/
  text : e.reportText = (line ++ "\n").toList
  /-- Every character is the byte of its number. -/
  bytes : e.reportText.map Char.toUInt8 = (line ++ "\n").toUTF8.data.toList
  /-- The text is sent by the loop, and then the process ends, wherever the report goes. -/
  looped : ∀ {σ : Type} (outlet : Outlet σ) (s : σ), ∃ writes t,
    outlet.Sends e.reportText s writes t ∧ (outlet.abort e : Action σ α) s = .error e t
  /-- A kernel that takes something of every write gets it once and in order, and nothing else
  changes. -/
  sent : ∀ k : Kernel, 0 < k.knobs.writeChunk →
    death k = .error e { k with errorOutput := k.errorOutput ++ e.reportText }
  /-- A kernel that takes nothing is left as it was, and the process ends all the same. -/
  refused : ∀ k : Kernel, k.knobs.writeChunk = 0 → death k = .error e k
  /-- Whatever takes something of every write gets it so, and the amounts do not matter. -/
  received : ∀ {σ : Type} (outlet : Outlet σ) (received : σ → List Char) (meant : σ → Prop),
    outlet.Lawful received → outlet.Accepts meant → ∀ s, meant s → ∃ writes t,
      outlet.Sends e.reportText s writes t ∧ (outlet.abort e : Action σ α) s = .error e t ∧
        received t = received s ++ e.reportText

/-- A process says the line of its report, if that is short. -/
theorem Kernel.lastWords_abort {α : Type} {e : Ending} {opening message : String} {n : Nat}
    (hreport : e.report? = some [opening, message]) (hbrief : Brief (opening ++ message) n)
    (hroom : n < reportCapacity) :
    LastWords (abort e : Action Kernel α) e (opening ++ message) where
  reports := rfl
  held pieces hpieces := by
    rw [hbrief.chars_writeAll hroom hpieces, Ending.reportText_eq hreport hbrief hroom]
  text := Ending.reportText_eq hreport hbrief hroom
  bytes := by
    rw [Ending.reportText_eq hreport hbrief hroom, hbrief.ended.utf8_eq]
  looped outlet s := by
    obtain ⟨writes, -, hsends⟩ := outlet.sends_send e.reportText s
    exact ⟨writes, _, hsends, rfl⟩
  sent _ hchunk := congrArg (EStateM.Result.error e) (sendError_eq e.reportText hchunk)
  refused _ hchunk := congrArg (EStateM.Result.error e) (sendError_eq_self e.reportText hchunk)
  received outlet received meant hlawful haccepts s hmeant := by
    obtain ⟨writes, -, hsends⟩ := outlet.sends_send e.reportText s
    exact ⟨writes, _, hsends, rfl, hsends.received_all hlawful haccepts hmeant⟩

/-- Bytes as a text, each of them as the character of its number. -/
def byteText (bytes : List UInt8) : List Char := bytes.map Char.ofUInt8

theorem map_toUInt8_byteText (bytes : List UInt8) : (byteText bytes).map Char.toUInt8 = bytes := by
  rw [byteText, List.map_map]
  exact List.map_id'' (fun byte => UInt8.toUInt8_toUInt32 byte) bytes

/-- A buffer holds the first bytes of all that was written to it, as many as it has room for. -/
theorem BoundedText.map_toUInt8_writeAll (capacity : Nat) (pieces : List (List UInt8)) :
    ((BoundedText.empty : BoundedText capacity).writeAll (pieces.map byteText)).chars.map
      Char.toUInt8 = pieces.flatten.take capacity := by
  have hflatten : (pieces.map byteText).flatten = byteText pieces.flatten :=
    List.map_flatten.symm
  rw [chars_writeAll, hflatten, List.map_take]
  exact congrArg (List.take capacity) (map_toUInt8_byteText pieces.flatten)

example : ((BoundedText.empty : BoundedText 8).writeAll ["01234".toList, "56789".toList]).chars =
    "01234567".toList := by decide

/-- A broken heap is reported in full, and so is a lack of memory: what is received is the line and
its end.  A buffer never holds anything but the start of what was written to it.  The loop that
sends ends for every outlet, in one way only, and what is received is the start of the text; if
nothing is taken, it ends with the first write. -/
theorem last_words_complete {α : Type} :
    (∀ fault : Corruption, (∀ n ∈ fault.fields, n < Word.limit) →
      Kernel.LastWords (Kernel.corrupted fault : Action Kernel α) (.corrupted fault)
        ("runalloc: heap corruption: " ++ fault.message)) ∧
      (∀ size, size < Word.limit →
        Kernel.LastWords (Kernel.abort (.outOfMemory size) : Action Kernel α) (.outOfMemory size)
          ("runalloc: " ++ (AllocError.outOfMemory size).message)) ∧
      (∀ capacity (pieces : List (List UInt8)),
        ((BoundedText.empty : BoundedText capacity).writeAll (pieces.map byteText)).chars.map
          Char.toUInt8 = pieces.flatten.take capacity) ∧
      ∀ {σ : Type} (outlet : Outlet σ) (received : σ → List Char), outlet.Lawful received →
        ∀ text s, ∃ writes t, writes ≤ text.length ∧ outlet.Sends text s writes t ∧
          outlet.send text s = t ∧
          (∀ writes' t', outlet.Sends text s writes' t' → writes' = writes ∧ t' = t) ∧
          (∃ n, received t = received s ++ text.take n) ∧
          (outlet.taken text s = 0 → writes ≤ 1 ∧ received t = received s) := by
  refine ⟨fun fault hwords => ?_, fun size hword => ?_, BoundedText.map_toUInt8_writeAll,
    fun outlet received hlawful text s => ?_⟩
  · have hopening : Brief "runalloc: heap corruption: " 27 := .of_all (by decide) (by decide)
    exact Kernel.lastWords_abort rfl (hopening.append (Corruption.brief_message hwords)) (by decide)
  · have hopening : Brief "runalloc: " 10 := .of_all (by decide) (by decide)
    exact Kernel.lastWords_abort rfl (hopening.append (AllocError.brief_outOfMemory hword))
      (by decide)
  · obtain ⟨writes, hle, hsends⟩ := outlet.sends_send text s
    exact ⟨writes, _, hle, hsends, rfl, fun writes' t' hsends' => hsends'.unique hsends,
      hsends.received_take hlawful, hsends.received_nothing hlawful⟩

/-- The longest report of all, sent seven bytes at a time. -/
theorem last_words_longest :
    (∀ n ∈ (Corruption.sizeMismatch (2 ^ 64 - 1) (2 ^ 64 - 1) (2 ^ 64 - 1)).fields,
      n < Word.limit) ∧
      ∃ k' : Kernel, (Kernel.corrupted (.sizeMismatch (2 ^ 64 - 1) (2 ^ 64 - 1) (2 ^ 64 - 1)) :
          Action Kernel Unit) { Kernel.boot 1 none with knobs := { writeChunk := 7 } } =
            .error (.corrupted (.sizeMismatch (2 ^ 64 - 1) (2 ^ 64 - 1) (2 ^ 64 - 1))) k' ∧
        k'.errorOutput = ("runalloc: heap corruption: free of 0xffffffffffffffff claims " ++
          "18446744073709551615 bytes but only 18446744073709551615 are allocated\n").toList := by
  have hwords : ∀ n ∈ (Corruption.sizeMismatch (2 ^ 64 - 1) (2 ^ 64 - 1) (2 ^ 64 - 1)).fields,
      n < Word.limit := by decide
  have hlast : Kernel.LastWords (Kernel.corrupted _ : Action Kernel Unit) _ _ :=
    last_words_complete.1 _ hwords
  have hline : "runalloc: heap corruption: " ++
      (Corruption.sizeMismatch (2 ^ 64 - 1) (2 ^ 64 - 1) (2 ^ 64 - 1)).message ++ "\n" =
        "runalloc: heap corruption: free of 0xffffffffffffffff claims " ++
          "18446744073709551615 bytes but only 18446744073709551615 are allocated\n" := by
    decide +kernel
  refine ⟨hwords, _, hlast.sent _ (by decide), ?_⟩
  rw [hlast.text, hline]
  exact List.nil_append _

end PagedHeap
