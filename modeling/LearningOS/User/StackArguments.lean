import LearningOS.User.StackBounds

namespace LearningOS
open ByteStore

/-- The stack pointer does not wrap below address 0. -/
def StackNoWrap (m : Bytes) (top size argv : Nat) (argc : Int) (outEsp : Nat) : Prop :=
  (∀ i s n, StageReached m top size argv argc outEsp (i + 1) s → argSize s.mem (argAt s.mem argv i) = some n →
      u32 n ≤ s.sp) ∧
    ∀ s, StageReached m top size argv argc outEsp 0 s → (argc.toNat + 2) * 4 ≤ s.sp - s.sp % 4

/-- The pointer `argv[i]` on the prepared stack. -/
def stackArg (mem : Bytes) (esp i : Nat) : Nat := load32 mem (esp + 4 + 4 * i)

/-- The prepared stack `mem` at `esp` has the arguments that `m` had at `argv`: `argc`, the
pointers to NUL-terminated copies and the null, the copies apart from each other and from the
words. -/
structure ReadsBack (m : Bytes) (argv argc : Nat) (mem : Bytes) (esp : Nat) : Prop where
  aligned : esp % 4 = 0
  count : load32 mem esp = argc
  copies : ∀ i, i < argc → ∃ bs, stringAt m (argAt m argv i) = some bs ∧
    copyOut mem (stackArg mem esp i) (bs.length + 1) = bs ++ [0]
  null : stackArg mem esp argc = 0
  apart : ∀ i j as bs, i < j → j < argc → stringAt m (argAt m argv i) = some as →
    stringAt m (argAt m argv j) = some bs → stackArg mem esp i + (as.length + 1) ≤ stackArg mem esp j ∨
      stackArg mem esp j + (bs.length + 1) ≤ stackArg mem esp i
  words : ∀ i bs, i < argc → stringAt m (argAt m argv i) = some bs →
    stackArg mem esp i + (bs.length + 1) ≤ esp ∨ esp + (argc + 2) * 4 ≤ stackArg mem esp i

/-- The next argument is still what it was, is shorter than the address space, and its copy
does not begin inside of it. -/
def Intact (m : Bytes) (argv i : Nat) (s : StackState) : Prop :=
  stringAt s.mem (argAt s.mem argv i) = stringAt m (argAt m argv i) ∧
    ∀ n, argSize s.mem (argAt s.mem argv i) = some n → n < 2 ^ 32 ∧
      (argAt s.mem argv i = 0 ∨ sub32 s.sp n = argAt s.mem argv i ∨
        n ≤ sub32 (sub32 s.sp n) (argAt s.mem argv i))

section
variable {m : Bytes} {top size argv outEsp i j n len : Nat} {argc : Int} {s t : StackState}

theorem argSize_eq_some_iff {arg : Nat} :
    argSize m arg = some n ↔ ∃ bs, stringAt m arg = some bs ∧ n = bs.length + 1 := by
  unfold argSize stringAt
  by_cases null : arg = 0
  · rw [null]
    simp [strlen, copyOut, eq_comm]
  · rw [if_pos null]
    cases strlen m arg with
    | none => simp
    | some k => simp [eq_comm]

theorem argAt_lt (m : Bytes) (argv i : Nat) : argAt m argv i < 2 ^ 32 := by
  unfold argAt
  split
  · exact load32_lt _ _
  · decide

theorem storeWords_outside {a x : Nat} {ws : List Nat} (fits : a + 4 * ws.length ≤ 2 ^ 32)
    (outside : x < a ∨ a + 4 * ws.length ≤ x) : storeWords m a ws x = m x := by
  induction ws generalizing m a with
  | nil => rfl
  | cons w ws ih =>
    rw [List.length_cons] at fits outside
    rw [storeWords, ih (by omega) (by omega), u32_of_lt (by omega), store32_outside (by omega)]

theorem storeWords_at {a k w : Nat} {ws : List Nat} (fits : a + 4 * ws.length ≤ 2 ^ 32) (word : w < 2 ^ 32)
    (entry : ws[k]? = some w) : load32 (storeWords m a ws) (a + 4 * k) = w := by
  induction ws generalizing m a k with
  | nil => cases entry
  | cons v ws ih =>
    rw [List.length_cons] at fits
    rw [storeWords]
    cases k with
    | zero =>
      cases entry
      rw [load32_congr fun x lower upper => storeWords_outside (by omega) (by omega), u32_of_lt (by omega)]
      exact (load32_store32_same _ _ _).trans (Nat.mod_eq_of_lt word)
    | succ k =>
      rw [show a + 4 * (k + 1) = a + 4 + 4 * k by omega]
      exact ih (by omega) entry

/-- The stack once the pointers and `argc` are on it. -/
theorem pushWords_spec {argc : Nat} (few : argc ≤ 16) (spWord : s.sp < 2 ^ 32) (count : s.ptrs.length = argc)
    (room : (argc + 2) * 4 ≤ s.sp - s.sp % 4) :
    ∃ esp, (pushWords s argc).esp = some esp ∧ esp % 4 = 0 ∧ esp + (argc + 2) * 4 ≤ s.sp ∧
      load32 (pushWords s argc).mem esp = argc ∧ stackArg (pushWords s argc).mem esp argc = 0 ∧
      (∀ k p, s.ptrs[k]? = some p → p < 2 ^ 32 → stackArg (pushWords s argc).mem esp k = p) ∧
      ∀ x, s.sp ≤ x → (pushWords s argc).mem x = s.mem x := by
  obtain ⟨esp, atEsp⟩ : ∃ esp, esp = s.sp - s.sp % 4 - (argc + 2) * 4 := ⟨_, rfl⟩
  have pointers : sub32 (s.sp - s.sp % 4) ((argc + 1) * 4) = esp + 4 := by
    rw [sub32_of_le (by omega) (by omega)]
    omega
  have lowest : sub32 (esp + 4) 4 = esp := sub32_of_le (by omega) (by omega)
  have words : (s.ptrs ++ [0]).length = argc + 1 := by simp [count]
  have fits : esp + 4 + 4 * (s.ptrs ++ [0]).length ≤ 2 ^ 32 := by omega
  have word {k w : Nat} (bound : w < 2 ^ 32) (entry : (s.ptrs ++ [0])[k]? = some w) :
      stackArg (store32 (storeWords s.mem (esp + 4) (s.ptrs ++ [0])) esp argc) esp k = w := by
    rw [stackArg, load32_store32_other (by omega)]
    exact storeWords_at fits bound entry
  simp only [pushWords, pointers, lowest]
  refine ⟨esp, rfl, by omega, by omega, ?_, ?_, fun k p entry bound => ?_, fun x above => ?_⟩
  · rw [load32_store32_same]
    omega
  · exact word (by omega) (by rw [List.getElem?_append_right (by omega), count, Nat.sub_self]; rfl)
  · refine word bound ?_
    obtain ⟨inside, _⟩ := List.getElem?_eq_some_iff.mp entry
    rwa [List.getElem?_append_left inside]
  · rw [store32_outside (by omega), storeWords_outside fits (by omega)]

theorem argSize_null (length : argSize m 0 = some n) : n = 1 := (Option.some.inj length).symm

/-- A push that does not wrap leaves what stands from the stack pointer on. -/
theorem pushArg_above {arg x : Nat} (length : argSize s.mem arg = some n) (spWord : s.sp < 2 ^ 32) (room : u32 n ≤ s.sp)
    (above : s.sp ≤ x) : (pushArg s arg (u32 n)).mem x = s.mem x := by
  simp only [pushArg, sub32_of_le room spWord]
  by_cases null : arg = 0
  · subst null
    rw [argSize_null length, u32_of_lt (by decide)] at room
    rw [if_neg (by simp), argSize_null length, u32_of_lt (by decide), store_of_ne (by omega)]
  · rw [if_pos null]
    refine memcpy_outside fun j below => ?_
    rw [u32_of_lt (by omega)]
    omega

theorem StageReached.spBounds (word : top < 2 ^ 32) (noWrap : StackNoWrap m top size argv argc outEsp)
    (reached : StageReached m top size argv argc outEsp i s) :
    s.sp ≤ top ∧ (∀ p ∈ s.ptrs, s.sp ≤ p ∧ p < 2 ^ 32) ∧ (i < argc.toNat → s.ptrs.head? = some s.sp) := by
  obtain ⟨checked, steps⟩ := reached
  generalize finish : (i, s) = b at steps
  induction steps generalizing i s with
  | refl =>
    cases finish
    exact ⟨Nat.le_refl top, fun p member => absurd member List.not_mem_nil, fun below => absurd below (Nat.lt_irrefl _)⟩
  | @tail b c before step ih =>
    cases finish
    obtain ⟨upper, pointers, _⟩ := ih (i := b.1) (s := b.2) rfl
    obtain ⟨next, n, length, passes, made⟩ := step
    dsimp only at next length made
    have room := noWrap.1 i b.2 n ⟨checked, (Prod.ext next rfl : b = (i + 1, b.2)) ▸ before⟩ length
    rw [made]
    simp only [pushArg, sub32_of_le room (by omega : b.2.sp < 2 ^ 32)]
    refine ⟨by omega, fun p member => ?_, fun _ => rfl⟩
    rcases List.mem_cons.mp member with rfl | old
    · omega
    · have earlier := pointers p old
      omega

/-- What stands from the stack pointer on stays to the end, and the pointers written so far
are the last ones. -/
theorem StageReached.kept (word : top < 2 ^ 32) (noWrap : StackNoWrap m top size argv argc outEsp)
    (reached : StageReached m top size argv argc outEsp i s)
    (steps : Relation.ReflTransGen (PushStep top size argv) (i, s) (j, t)) :
    t.sp ≤ s.sp ∧ (∀ x, s.sp ≤ x → t.mem x = s.mem x) ∧ ∃ front, t.ptrs = front ++ s.ptrs ∧ front.length + j = i := by
  generalize finish : (j, t) = b at steps
  induction steps generalizing j t with
  | refl =>
    cases finish
    exact ⟨Nat.le_refl _, fun x _ => rfl, [], rfl, Nat.zero_add i⟩
  | @tail b c before step ih =>
    cases finish
    obtain ⟨lower, same, front, pointers, count⟩ := ih (j := b.1) (t := b.2) rfl
    obtain ⟨next, n, length, passes, made⟩ := step
    dsimp only at next length made
    have later : StageReached m top size argv argc outEsp (j + 1) b.2 :=
      ⟨reached.1, reached.2.trans ((Prod.ext next rfl : b = (j + 1, b.2)) ▸ before)⟩
    have room := noWrap.1 j b.2 n later length
    have upper := (later.spBounds word noWrap).1
    rw [made]
    refine ⟨?_, fun x above => ?_, sub32 b.2.sp (u32 n) :: front, ?_, ?_⟩
    · simp only [pushArg, sub32_of_le room (by omega : b.2.sp < 2 ^ 32)]
      exact (Nat.sub_le _ _).trans lower
    · rw [pushArg_above length (by omega) room (by omega), same x above]
    · simp only [pushArg, pointers, List.cons_append]
    · rw [List.length_cons]
      omega

/-- A call that returns 0 pushes each argument it comes to. -/
theorem StageReached.pushed (returned : (elfPrepareStack m top size argv argc outEsp).ret = some 0)
    (reached : StageReached m top size argv argc outEsp (i + 1) s) :
    ∃ n t, argSize s.mem (argAt s.mem argv i) = some n ∧
      PushStep top size argv (i + 1, s) (i, pushArg s (argAt s.mem argv i) (u32 n)) ∧
      Relation.ReflTransGen (PushStep top size argv) (i, pushArg s (argAt s.mem argv i) (u32 n)) (0, t) := by
  rw [elfPrepareStack_checked reached.1 reached.2] at returned
  rcases pushArgs_end (i + 1) s with ⟨t, steps, _⟩ | ⟨_, t, _, _, result⟩ | ⟨_, t, _, _, result⟩
  · rcases steps.cases_head with same | ⟨⟨j, u⟩, step, later⟩
    · cases same
    · obtain ⟨next, n, length, passes, made⟩ := step
      dsimp only at next length passes made
      obtain rfl : i = j := by omega
      subst made
      exact ⟨n, t, length, ⟨rfl, n, length, passes, rfl⟩, later⟩
  · rw [result] at returned
    cases returned
  · rw [result] at returned
    cases returned

/-- A call that returns 0 comes to each of its arguments. -/
theorem stageReached_of_lt (returned : (elfPrepareStack m top size argv argc outEsp).ret = some 0)
    (checked : StackChecked top size argc outEsp) (inside : i < argc.toNat) :
    ∃ s, StageReached m top size argv argc outEsp (i + 1) s := by
  obtain ⟨d, after⟩ : ∃ d, i + 1 + d = argc.toNat := ⟨argc.toNat - (i + 1), by omega⟩
  induction d generalizing i with
  | zero =>
    refine ⟨⟨m, top, [], []⟩, checked, ?_⟩
    rw [← after]
  | succ d ih =>
    obtain ⟨s, reached⟩ := ih (i := i + 1) (by omega) (by omega)
    obtain ⟨n, _, _, step, _⟩ := reached.pushed returned
    exact ⟨_, checked, reached.2.tail step⟩

/-- Where an argument stands on the prepared stack, and what of its copy. -/
theorem StageReached.placed (word : top < 2 ^ 32) (noWrap : StackNoWrap m top size argv argc outEsp)
    (returned : (elfPrepareStack m top size argv argc outEsp).ret = some 0)
    (reached : StageReached m top size argv argc outEsp (i + 1) s) {esp : Nat}
    (atEsp : (elfPrepareStack m top size argv argc outEsp).esp = some esp) :
    ∃ n, argSize s.mem (argAt s.mem argv i) = some n ∧ u32 n ≤ s.sp ∧ s.sp ≤ top ∧
      esp + (argc.toNat + 2) * 4 ≤ s.sp - u32 n ∧
      stackArg (elfPrepareStack m top size argv argc outEsp).mem esp i = s.sp - u32 n ∧
      (∀ x, s.sp - u32 n ≤ x → (elfPrepareStack m top size argv argc outEsp).mem x =
        (pushArg s (argAt s.mem argv i) (u32 n)).mem x) ∧
      (∀ j, i < j → j < argc.toNat → s.sp ≤ stackArg (elfPrepareStack m top size argv argc outEsp).mem esp j) ∧
      (i + 1 < argc.toNat → stackArg (elfPrepareStack m top size argv argc outEsp).mem esp (i + 1) = s.sp) := by
  obtain ⟨n, t, length, step, later⟩ := reached.pushed returned
  obtain ⟨upper, bounds, head⟩ := reached.spBounds word noWrap
  have room := noWrap.1 i s n reached length
  have next : StageReached m top size argv argc outEsp i (pushArg s (argAt s.mem argv i) (u32 n)) :=
    ⟨reached.1, reached.2.tail step⟩
  have last : StageReached m top size argv argc outEsp 0 t := ⟨reached.1, next.2.trans later⟩
  have dst : (pushArg s (argAt s.mem argv i) (u32 n)).sp = s.sp - u32 n := sub32_of_le room (by omega)
  obtain ⟨lower, same, front, pointers, count⟩ := next.kept word noWrap later
  obtain ⟨_, _, all, whole, total⟩ := StageReached.kept (i := argc.toNat) word noWrap ⟨reached.1, .refl⟩ last.2
  have length' : t.ptrs.length = argc.toNat := by rw [whole, List.append_nil]; omega
  have tUpper := (last.spBounds word noWrap).1
  obtain ⟨esp', at', _, below, _, _, entry, above⟩ :=
    pushWords_spec (argc_le reached.1) (by omega) length' (noWrap.2 t last)
  rw [← last.done] at at' entry above
  cases at'.symm.trans atEsp
  rw [dst] at lower same
  have entryAbove (k : Nat) : t.ptrs[i + 1 + k]? = s.ptrs[k]? := by
    rw [pointers, List.getElem?_append_right (by omega), pushArg, show i + 1 + k - front.length = k + 1 by omega,
      List.getElem?_cons_succ]
  refine ⟨n, length, room, upper, by omega, ?_, fun x high => ?_, fun j behind few => ?_, fun more => ?_⟩
  · refine entry i _ ?_ (by omega)
    rw [pointers, List.getElem?_append_right (by omega), show i - front.length = 0 by omega]
    exact congrArg some dst
  · rw [above x (by omega), same x high]
  · obtain ⟨k, rfl⟩ : ∃ k, j = i + 1 + k := ⟨j - (i + 1), by omega⟩
    obtain ⟨p, held⟩ : ∃ p, t.ptrs[i + 1 + k]? = some p := ⟨_, List.getElem?_eq_getElem (by omega)⟩
    obtain ⟨lower, small⟩ := bounds p (List.mem_of_getElem? ((entryAbove k).symm.trans held))
    rwa [entry _ p held small]
  · refine entry _ _ ((entryAbove 0).trans ?_) (by omega)
    rw [← List.head?_eq_getElem?]
    exact head more

theorem pushSteps_count {a b : Nat × StackState} (steps : Relation.ReflTransGen (PushStep top size argv) a b) :
    b.1 ≤ a.1 ∧ (b.1 = a.1 → b = a) := by
  induction steps with
  | refl => exact ⟨Nat.le_refl _, fun _ => rfl⟩
  | tail _ step ih =>
    have next := step.1
    exact ⟨by omega, fun same => by omega⟩

/-- What a push that does not begin inside its argument leaves at the stack pointer. -/
theorem pushArg_copy {arg : Nat} {bs : List UInt8} (string : stringAt s.mem arg = some bs) (argWord : arg < 2 ^ 32)
    (spWord : s.sp < 2 ^ 32) (room : bs.length + 1 ≤ s.sp)
    (clear : arg = 0 ∨ s.sp - (bs.length + 1) = arg ∨ bs.length + 1 ≤ sub32 (s.sp - (bs.length + 1)) arg) :
    copyOut (pushArg s arg (bs.length + 1)).mem (s.sp - (bs.length + 1)) (bs.length + 1) = bs ++ [0] := by
  simp only [pushArg, sub32_of_le room spWord]
  by_cases null : arg = 0
  · rw [null, stringAt_null] at string
    cases string
    rw [if_neg (by simpa using null)]
    simp [copyOut, u32_of_lt (by omega : s.sp - 1 < 2 ^ 32)]
  · rw [if_pos null, ← ((stringAt_eq_some_iff null).mp string).2.1]
    refine List.map_congr_left fun j member => ?_
    exact memcpy_forward ⟨by omega, argWord⟩ (by omega) (clear.resolve_left null) (List.mem_range.mp member)

/-- A call that returns 0 has come to its end, with the words below the arguments. -/
theorem elfPrepareStack_returned (word : top < 2 ^ 32) (noWrap : StackNoWrap m top size argv argc outEsp)
    (returned : (elfPrepareStack m top size argv argc outEsp).ret = some 0) :
    StackChecked top size argc outEsp ∧ ∃ esp, (elfPrepareStack m top size argv argc outEsp).esp = some esp ∧
      esp % 4 = 0 ∧ esp + (argc.toNat + 2) * 4 ≤ top ∧
      load32 (elfPrepareStack m top size argv argc outEsp).mem esp = argc.toNat ∧
      stackArg (elfPrepareStack m top size argv argc outEsp).mem esp argc.toNat = 0 := by
  by_cases checked : StackChecked top size argc outEsp
  · refine ⟨checked, ?_⟩
    have start : StageReached m top size argv argc outEsp argc.toNat ⟨m, top, [], []⟩ := ⟨checked, .refl⟩
    obtain ⟨t, last⟩ : ∃ t, StageReached m top size argv argc outEsp 0 t := by
      rcases Nat.eq_zero_or_pos argc.toNat with none | some
      · rw [none] at start
        exact ⟨_, start⟩
      · obtain ⟨s, reached⟩ := stageReached_of_lt returned checked some
        obtain ⟨n, _, _, step, _⟩ := reached.pushed returned
        exact ⟨_, checked, reached.2.tail step⟩
    obtain ⟨lower, _, front, whole, total⟩ := start.kept word noWrap last.2
    have upper : t.sp ≤ top := lower
    have count : t.ptrs.length = argc.toNat := by rw [whole, List.append_nil]; omega
    obtain ⟨esp, at_esp, aligned, below, number, null, _⟩ :=
      pushWords_spec (argc_le checked) (by omega) count (noWrap.2 t last)
    rw [last.done]
    exact ⟨esp, at_esp, aligned, below.trans upper, number, null⟩
  · rw [elfPrepareStack_unchecked checked] at returned
    cases returned

theorem stringAt_unique {mem : Bytes} {p : Nat} {as bs : List UInt8} (notNull : p ≠ 0)
    (first : copyOut mem p (as.length + 1) = as ++ [0]) (firstNonzero : 0 ∉ as) (firstShort : as.length < 2 ^ 32)
    (second : copyOut mem p (bs.length + 1) = bs ++ [0]) (secondNonzero : 0 ∉ bs) (secondShort : bs.length < 2 ^ 32) :
    as = bs :=
  Option.some.inj (((stringAt_eq_some_iff notNull).mpr ⟨firstShort, first, firstNonzero⟩).symm.trans
    ((stringAt_eq_some_iff notNull).mpr ⟨secondShort, second, secondNonzero⟩))

theorem stringAt_nonzero {a : Nat} {bs : List UInt8} (string : stringAt m a = some bs) :
    0 ∉ bs ∧ bs.length < 2 ^ 32 := by
  by_cases null : a = 0
  · rw [null, stringAt_null] at string
    cases string
    simp
  · obtain ⟨short, _, nonzero⟩ := (stringAt_eq_some_iff null).mp string
    exact ⟨nonzero, short⟩

theorem copy_nonzero {mem : Bytes} {p : Nat} {bs : List UInt8} (copy : copyOut mem p (bs.length + 1) = bs ++ [0])
    (nonzero : 0 ∉ bs) (inside : j < bs.length) : mem (u32 (p + j)) ≠ 0 := by
  intro zero
  rw [copyOut_succ] at copy
  rw [← List.append_inj_left copy (copyOut_length _ _ _)] at nonzero
  exact nonzero (List.mem_map.mpr ⟨j, List.mem_range.mpr inside, zero⟩)

theorem load32_eq_zero {mem : Bytes} {a : Nat} (zero : load32 mem a = 0) : mem a = 0 ∧ mem (a + 1) = 0 := by
  unfold load32 load16 at zero
  exact ⟨UInt8.toNat_inj.mp (by rw [UInt8.toNat_zero]; omega), UInt8.toNat_inj.mp (by rw [UInt8.toNat_zero]; omega)⟩

/-- No string takes the whole address space beside a word that is zero. -/
theorem not_whole_of_zero {mem : Bytes} {p a : Nat} {bs : List UInt8} (pWord : p < 2 ^ 32) (inside : a + 2 ≤ 2 ^ 32)
    (copy : copyOut mem p (bs.length + 1) = bs ++ [0]) (nonzero : 0 ∉ bs) (zero : load32 mem a = 0) :
    bs.length + 1 ≠ 2 ^ 32 := by
  intro whole
  obtain ⟨low, high⟩ := load32_eq_zero zero
  have back {x : Nat} (small : x < 2 ^ 32) : u32 (p + sub32 x p) = x := by
    unfold sub32 u32
    omega
  have first : ¬ sub32 a p < bs.length := fun within =>
    copy_nonzero copy nonzero within (by rw [back (by omega)]; exact low)
  have second : ¬ sub32 (a + 1) p < bs.length := fun within =>
    copy_nonzero copy nonzero within (by rw [back (by omega)]; exact high)
  unfold sub32 u32 at first second
  omega

/-- Arguments that read back were intact when they were pushed. -/
theorem StageReached.intact (word : top < 2 ^ 32) (noWrap : StackNoWrap m top size argv argc outEsp)
    (returned : (elfPrepareStack m top size argv argc outEsp).ret = some 0)
    (reached : StageReached m top size argv argc outEsp (i + 1) s) {esp : Nat}
    (atEsp : (elfPrepareStack m top size argv argc outEsp).esp = some esp)
    (back : ReadsBack m argv argc.toNat (elfPrepareStack m top size argv argc outEsp).mem esp) : Intact m argv i s := by
  obtain ⟨n, length, room, upper, below, pointer, copied, _, head⟩ := reached.placed word noWrap returned atEsp
  obtain ⟨few, first⟩ := pushSteps_count reached.2
  dsimp only at few first
  obtain ⟨bs, original, copy⟩ := back.copies i (by omega)
  obtain ⟨ts, string, rfl⟩ := argSize_eq_some_iff.mp length
  obtain ⟨bsNonzero, bsShort⟩ := stringAt_nonzero original
  obtain ⟨tsNonzero, tsShort⟩ := stringAt_nonzero string
  rw [pointer] at copy
  -- the next copy stands where this one ends, or this one is of the string as it was
  have notLonger : bs.length + 1 ≤ u32 (ts.length + 1) ∨ bs = ts := by
    by_cases more : i + 1 < argc.toNat
    · left
      obtain ⟨cs, next, _⟩ := back.copies (i + 1) more
      have apart := back.apart i (i + 1) bs cs (by omega) more original next
      rw [pointer, head more] at apart
      omega
    · right
      have same := congrArg Prod.snd (first (by omega))
      dsimp only at same
      rw [same] at string
      exact Option.some.inj (original.symm.trans string)
  have zero : (elfPrepareStack m top size argv argc outEsp).mem (u32 (s.sp - u32 (ts.length + 1) + bs.length)) = 0 := by
    rw [copyOut_succ] at copy
    exact List.singleton_inj.mp (List.append_inj_right copy (copyOut_length _ _ _))
  by_cases whole : ts.length + 1 = 2 ^ 32
  · rw [whole] at notLonger copy below
    obtain rfl : bs = ts := notLonger.resolve_left (by unfold u32; omega)
    have belowTop : esp + (argc.toNat + 2) * 4 ≤ s.sp := below.trans (Nat.sub_le _ _)
    exact absurd whole (not_whole_of_zero (by omega) (by omega) copy bsNonzero back.null)
  have small : u32 (ts.length + 1) = ts.length + 1 := u32_of_lt (by omega)
  rw [small] at room below copied copy notLonger zero
  have clear : argAt s.mem argv i = 0 ∨ s.sp - (ts.length + 1) = argAt s.mem argv i ∨
      ts.length + 1 ≤ sub32 (s.sp - (ts.length + 1)) (argAt s.mem argv i) := by
    by_contra harmful
    simp only [not_or, Nat.not_le] at harmful
    obtain ⟨null, apart, inside⟩ := harmful
    obtain ⟨_, bytes, _⟩ := (stringAt_eq_some_iff null).mp string
    have shorter : bs.length < ts.length + 1 := by
      rcases notLonger with less | same
      · omega
      · rw [same]
        omega
    rw [copied _ (by rw [u32_of_lt (by omega)]; omega)] at zero
    simp only [pushArg, if_pos null, sub32_of_le room (by omega : s.sp < 2 ^ 32)] at zero
    exact memcpy_repeats (p := (· ≠ 0)) ⟨by omega, argAt_lt _ _ _⟩ (by omega) apart
      (fun k front => copy_nonzero bytes tsNonzero (by omega)) shorter zero
  have equal : ts = bs := by
    refine stringAt_unique (by omega) ?_ tsNonzero tsShort copy bsNonzero bsShort
    rw [← pushArg_copy string (argAt_lt _ _ _) (by omega) room clear]
    exact copyOut_congr fun j within => copied _ (by rw [u32_of_lt (by omega)]; omega)
  refine ⟨by rw [string, original, equal], fun k size => ?_⟩
  cases Option.some.inj (size.symm.trans length)
  rw [sub32_of_le room (by omega)]
  exact ⟨by omega, clear⟩

/-- On a return of 0 with a stack pointer that has not wrapped, the arguments read back
exactly if each is intact when its turn comes. -/
theorem elf_prepare_stack_reads_back_iff (word : top < 2 ^ 32)
    (returned : (elfPrepareStack m top size argv argc outEsp).ret = some 0)
    (noWrap : StackNoWrap m top size argv argc outEsp) :
    (∃ esp, (elfPrepareStack m top size argv argc outEsp).esp = some esp ∧
      ReadsBack m argv argc.toNat (elfPrepareStack m top size argv argc outEsp).mem esp) ↔
      ∀ i s, StageReached m top size argv argc outEsp (i + 1) s → Intact m argv i s := by
  constructor
  · rintro ⟨esp, atEsp, back⟩ i s reached
    exact reached.intact word noWrap returned atEsp back
  · intro intact
    obtain ⟨checked, esp, atEsp, aligned, _, count, null⟩ := elfPrepareStack_returned word noWrap returned
    have place {i : Nat} {bs : List UInt8} (few : i < argc.toNat) (original : stringAt m (argAt m argv i) = some bs) :
        ∃ sp, bs.length + 1 ≤ sp ∧ esp + (argc.toNat + 2) * 4 ≤ sp - (bs.length + 1) ∧
          stackArg (elfPrepareStack m top size argv argc outEsp).mem esp i = sp - (bs.length + 1) ∧
          ∀ j, i < j → j < argc.toNat → sp ≤ stackArg (elfPrepareStack m top size argv argc outEsp).mem esp j := by
      obtain ⟨s, reached⟩ := stageReached_of_lt returned checked few
      obtain ⟨n, length, room, _, below, pointer, _, later, _⟩ := reached.placed word noWrap returned atEsp
      obtain ⟨same, clear⟩ := intact i s reached
      obtain ⟨ts, string, rfl⟩ := argSize_eq_some_iff.mp length
      obtain rfl : bs = ts := Option.some.inj (original.symm.trans (same.symm.trans string))
      rw [u32_of_lt (clear _ length).1] at room below pointer
      exact ⟨s.sp, room, below, pointer, later⟩
    refine ⟨esp, atEsp, aligned, count, fun i few => ?_, null, fun i j as bs less few first second => ?_,
      fun i bs few original => ?_⟩
    · obtain ⟨s, reached⟩ := stageReached_of_lt returned checked few
      obtain ⟨n, length, room, upper, below, pointer, copied, _, _⟩ := reached.placed word noWrap returned atEsp
      obtain ⟨same, clear⟩ := intact i s reached
      obtain ⟨ts, string, rfl⟩ := argSize_eq_some_iff.mp length
      obtain ⟨short, apart⟩ := clear _ length
      rw [u32_of_lt short] at room below pointer copied
      rw [sub32_of_le room (by omega)] at apart
      refine ⟨ts, same.symm.trans string, ?_⟩
      rw [pointer, ← pushArg_copy string (argAt_lt _ _ _) (by omega) room apart]
      exact copyOut_congr fun j within => copied _ (by rw [u32_of_lt (by omega)]; omega)
    · obtain ⟨sp, room, _, pointer, later⟩ := place (by omega) first
      have above := later j less few
      omega
    · obtain ⟨sp, room, below, pointer, _⟩ := place few original
      omega

/-- An address of the stack area. -/
def StackArea (top size x : Nat) : Prop := x < top ∧ top ≤ x + size

/-- The array `argv` and its strings lie outside the stack area. -/
structure ArgumentsOutside (m : Bytes) (top size argv argc : Nat) : Prop where
  array : ∀ i, i < argc → argv ≠ 0 → ∀ j, j < 4 → ¬ StackArea top size (u32 (argv + 4 * i + j))
  strings : ∀ i bs, i < argc → argAt m argv i ≠ 0 → stringAt m (argAt m argv i) = some bs →
    ∀ j, j ≤ bs.length → ¬ StackArea top size (u32 (argAt m argv i + j))

theorem ArgumentsOutside.argAt_eq {argc : Nat} (outside : ArgumentsOutside m top size argv argc)
    (same : ∀ x, ¬ StackArea top size x → s.mem x = m x) (few : i < argc) : argAt s.mem argv i = argAt m argv i := by
  unfold argAt
  by_cases null : argv = 0
  · rw [null]
    rfl
  · rw [if_pos null, if_pos null]
    refine load32_congr fun x lower upper => same _ ?_
    have byte := outside.array i few null (x - (argv + 4 * i)) (by omega)
    rwa [show argv + 4 * i + (x - (argv + 4 * i)) = x by omega] at byte

theorem ArgumentsOutside.stringAt_eq {argc : Nat} (outside : ArgumentsOutside m top size argv argc)
    (same : ∀ x, ¬ StackArea top size x → s.mem x = m x) (few : i < argc) {bs : List UInt8}
    (string : stringAt m (argAt m argv i) = some bs) : stringAt s.mem (argAt m argv i) = some bs := by
  by_cases null : argAt m argv i = 0
  · rw [null, stringAt_null] at string ⊢
    exact string
  · have bytes := (stringAt_eq_some_iff null).mp string
    rw [stringAt_eq_some_iff null, ← bytes.2.1]
    refine ⟨bytes.1, copyOut_congr fun j within => same _ ?_, bytes.2.2⟩
    exact outside.strings i bs few null string j (by omega)

/-- A push that stays in the stack area changes nothing outside it. -/
theorem pushArg_outside {a len x : Nat} (some : 0 < len) (room : len ≤ s.sp) (word : s.sp < 2 ^ 32)
    (area : ∀ y, s.sp - len ≤ y → y < s.sp → StackArea top size y) (off : ¬ StackArea top size x) :
    (pushArg s a len).mem x = s.mem x := by
  simp only [pushArg, sub32_of_le room word]
  by_cases null : a = 0
  · rw [if_neg (by simpa using null)]
    refine store_of_ne ?_
    rintro rfl
    exact off (area _ (Nat.le_refl _) (by omega))
  · rw [if_pos null]
    refine memcpy_outside fun j below equal => off ?_
    rw [equal, u32_of_lt (by omega)]
    exact area _ (by omega) (by omega)

/-- The strings of the arguments, none of them so long that the check of its room wraps. -/
def StringsFit (m : Bytes) (top size argv argc : Nat) : Prop :=
  ∀ i, i < argc → ∃ bs, stringAt m (argAt m argv i) = some bs ∧ bs.length + 1 < 2 ^ 32 ∧
    (size ≤ top → top - size + (bs.length + 1) < 2 ^ 32)

/-- What is known of an argument outside the stack area when its turn comes, if nothing outside
the area has changed: its string, and that there is room for it in the area. -/
structure Turn (m : Bytes) (top size argv i : Nat) (s : StackState) (bs : List UInt8) : Prop where
  pointer : argAt s.mem argv i = argAt m argv i
  original : stringAt m (argAt m argv i) = some bs
  string : stringAt s.mem (argAt s.mem argv i) = some bs
  length : argSize s.mem (argAt s.mem argv i) = some (bs.length + 1)
  short : bs.length + 1 < 2 ^ 32
  room : bs.length + 1 ≤ s.sp
  upper : s.sp ≤ top
  area : ∀ x, s.sp - (bs.length + 1) ≤ x → x < s.sp → StackArea top size x

theorem StageReached.turn (reached : StageReached m top size argv argc outEsp (i + 1) s) (word : top < 2 ^ 32)
    (noWrap : StackNoWrap m top size argv argc outEsp)
    (returned : (elfPrepareStack m top size argv argc outEsp).ret = some 0)
    (outside : ArgumentsOutside m top size argv argc.toNat) (strings : StringsFit m top size argv argc.toNat)
    (same : ∀ x, ¬ StackArea top size x → s.mem x = m x) : ∃ bs, Turn m top size argv i s bs := by
  obtain ⟨few, _⟩ := pushSteps_count reached.2
  dsimp only at few
  obtain ⟨bs, string, short, fits⟩ := strings i (by omega)
  obtain ⟨k, _, length, step, _⟩ := reached.pushed returned
  obtain ⟨_, k', length', passes, _⟩ := step
  dsimp only at length' passes
  have pointer := outside.argAt_eq same (show i < argc.toNat by omega)
  cases Option.some.inj (length'.symm.trans length)
  have room := noWrap.1 i s k reached length
  have upper := (reached.spBounds word noWrap).1
  have now := outside.stringAt_eq same (by omega) string
  rw [← pointer] at now
  obtain rfl : k = bs.length + 1 := by
    obtain ⟨cs, string', rfl⟩ := argSize_eq_some_iff.mp length
    cases Option.some.inj (string'.symm.trans now)
    rfl
  rw [u32_of_lt short] at room passes
  refine ⟨bs, pointer, string, now, length, short, room, upper, fun x lower below => ⟨by omega, ?_⟩⟩
  by_cases high : size ≤ top
  · have sum := fits high
    rw [NoRoom, sub32_of_le high word, u32_of_lt sum] at passes
    omega
  · omega

theorem Turn.intact {bs : List UInt8} (turn : Turn m top size argv i s bs) (word : top < 2 ^ 32) {argc : Nat}
    (few : i < argc) (outside : ArgumentsOutside m top size argv argc) : Intact m argv i s := by
  have argWord := argAt_lt m argv i
  have upper := turn.upper
  have room := turn.room
  refine ⟨turn.string.trans turn.original.symm, fun n length => ?_⟩
  cases Option.some.inj (length.symm.trans turn.length)
  refine ⟨turn.short, ?_⟩
  by_cases null : argAt s.mem argv i = 0
  · exact Or.inl null
  refine Or.inr (Or.inr ?_)
  by_contra meets
  rw [turn.pointer] at null meets
  rw [sub32_of_le room (by omega)] at meets
  refine outside.strings i bs few null turn.original (sub32 (s.sp - (bs.length + 1)) (argAt m argv i)) (by omega) ?_
  have start : u32 (argAt m argv i + sub32 (s.sp - (bs.length + 1)) (argAt m argv i)) = s.sp - (bs.length + 1) := by
    unfold sub32 u32
    omega
  rw [start]
  exact turn.area _ (Nat.le_refl _) (by omega)

/-- As long as the arguments are pushed, nothing changes outside the stack area. -/
theorem StageReached.area_kept (reached : StageReached m top size argv argc outEsp i s) (word : top < 2 ^ 32)
    (noWrap : StackNoWrap m top size argv argc outEsp)
    (returned : (elfPrepareStack m top size argv argc outEsp).ret = some 0)
    (outside : ArgumentsOutside m top size argv argc.toNat) (strings : StringsFit m top size argv argc.toNat) :
    ∀ x, ¬ StackArea top size x → s.mem x = m x := by
  obtain ⟨checked, steps⟩ := reached
  generalize finish : (i, s) = b at steps
  induction steps generalizing i s with
  | refl =>
    cases finish
    exact fun x _ => rfl
  | @tail b c before step ih =>
    cases finish
    have same := ih (i := b.1) (s := b.2) rfl
    obtain ⟨next, n, length, _, made⟩ := step
    dsimp only at next length made
    have reached : StageReached m top size argv argc outEsp (i + 1) b.2 :=
      ⟨checked, (Prod.ext next rfl : b = (i + 1, b.2)) ▸ before⟩
    obtain ⟨bs, turn⟩ := reached.turn word noWrap returned outside strings same
    cases Option.some.inj (length.symm.trans turn.length)
    have upper := turn.upper
    intro x off
    rw [made, u32_of_lt turn.short, pushArg_outside (Nat.succ_pos _) turn.room (by omega) turn.area off]
    exact same x off

/-- Arguments outside the stack area whose checks do not wrap are intact when their turn
comes. -/
theorem intact_of_outside (word : top < 2 ^ 32) (noWrap : StackNoWrap m top size argv argc outEsp)
    (returned : (elfPrepareStack m top size argv argc outEsp).ret = some 0)
    (outside : ArgumentsOutside m top size argv argc.toNat) (strings : StringsFit m top size argv argc.toNat) :
    ∀ i s, StageReached m top size argv argc outEsp (i + 1) s → Intact m argv i s := by
  intro i s reached
  have few := (pushSteps_count reached.2).1
  obtain ⟨bs, turn⟩ := reached.turn word noWrap returned outside strings
    (reached.area_kept word noWrap returned outside strings)
  exact turn.intact word (by omega) outside

/-- The stack pointer of a call with one argument, from its two values. -/
theorem stackNoWrap_one (length : argSize m (argAt m argv 0) = some n) (room : u32 n ≤ top)
    (words : 12 ≤ (pushArgs top size argv 1 ⟨m, top, [], []⟩).2.sp -
      (pushArgs top size argv 1 ⟨m, top, [], []⟩).2.sp % 4) :
    StackNoWrap m top size argv 1 outEsp := by
  refine ⟨fun i s k reached size' => ?_, fun s reached => ?_⟩
  · obtain ⟨few, first⟩ := pushSteps_count reached.2
    obtain rfl : i = 0 := by simpa using few
    have start := congrArg Prod.snd (first rfl)
    dsimp only at start
    subst start
    cases Option.some.inj (size'.symm.trans length)
    exact room
  · have run : pushArgs top size argv 1 ⟨m, top, [], []⟩ = (.done, s) := pushArgs_of_steps reached.2
    rwa [run] at words

end

/-- An argument of 79 bytes that ends where the stack begins, 16 bytes below the end of the
address space, and its pointer at `0x2000`. -/
def highArgument : Bytes :=
  store32 (fun x => if 0xFFFFFF60 ≤ x ∧ x < 0xFFFFFFAF then 0x41 else 0) 0x2000 0xFFFFFF60

/-- The sum of the check wraps to 0, the argument is copied over its own end, and the copy
has no NUL. -/
theorem elf_prepare_stack_loses_nul :
    ¬ (ArgumentsOutside highArgument 0xFFFFFFF0 64 0x2000 1 →
      (elfPrepareStack highArgument 0xFFFFFFF0 64 0x2000 1 0x3000).ret = some 0 →
      StackNoWrap highArgument 0xFFFFFFF0 64 0x2000 1 0x3000 →
      ∃ esp, (elfPrepareStack highArgument 0xFFFFFFF0 64 0x2000 1 0x3000).esp = some esp ∧
        ReadsBack highArgument 0x2000 1 (elfPrepareStack highArgument 0xFFFFFFF0 64 0x2000 1 0x3000).mem esp) := by
  intro claimed
  have pointer : argAt highArgument 0x2000 0 = 0xFFFFFF60 := by decide +kernel
  have length : strlen highArgument 0xFFFFFF60 = some 79 := by decide +kernel
  have string {bs : List UInt8} (found : stringAt highArgument (argAt highArgument 0x2000 0) = some bs) :
      bs.length = 79 := by
    rw [pointer, stringAt, length] at found
    rw [← Option.some.inj found, copyOut_length]
  have outside : ArgumentsOutside highArgument 0xFFFFFFF0 64 0x2000 1 := by
    refine ⟨fun i few _ j below => ?_, fun i bs few _ found j below => ?_⟩
    · unfold StackArea u32
      omega
    · obtain rfl : i = 0 := by omega
      rw [string found] at below
      rw [pointer]
      unfold StackArea u32
      omega
  have noWrap : StackNoWrap highArgument 0xFFFFFFF0 64 0x2000 1 0x3000 := by
    refine stackNoWrap_one (n := 80) (argSize_eq_some_iff.mpr ?_) (by decide) (by decide +kernel)
    refine ⟨_, by rw [pointer, stringAt, length]; rfl, ?_⟩
    rw [copyOut_length]
  obtain ⟨esp, atEsp, back⟩ := claimed outside (by decide +kernel) noWrap
  obtain ⟨bs, found, copy⟩ := back.copies 0 (by decide)
  have last : (elfPrepareStack highArgument 0xFFFFFFF0 64 0x2000 1 0x3000).mem 0xFFFFFFEF ≠ 0 := by decide +kernel
  have esp_eq : (elfPrepareStack highArgument 0xFFFFFFF0 64 0x2000 1 0x3000).esp = some 0xFFFFFF94 := by decide +kernel
  have placed :
      stackArg (elfPrepareStack highArgument 0xFFFFFFF0 64 0x2000 1 0x3000).mem 0xFFFFFF94 0 = 0xFFFFFFA0 := by
    decide +kernel
  cases atEsp.symm.trans esp_eq
  rw [placed, string found, copyOut_succ] at copy
  have nul := List.append_inj_right copy (by rw [copyOut_length, string found])
  exact last (List.singleton_inj.mp nul)

theorem elf_prepare_stack_reads_back_two_arguments :
    ∃ esp, (elfPrepareStack twoArguments 0x1000 64 0x2000 2 0x4000).esp = some esp ∧
      ReadsBack twoArguments 0x2000 2 (elfPrepareStack twoArguments 0x1000 64 0x2000 2 0x4000).mem esp := by
  have noWrap : StackNoWrap twoArguments 0x1000 64 0x2000 2 0x4000 := by
    refine ⟨fun i s n reached length => ?_, fun s reached => ?_⟩
    · cases Option.some.inj (length.symm.trans (twoArguments_size reached))
      rcases twoArguments_stages reached with ⟨_, rfl⟩ | ⟨_, rfl⟩ | ⟨stage, _⟩
      · decide
      · decide
      · cases stage
    · rcases twoArguments_stages reached with ⟨stage, _⟩ | ⟨stage, _⟩ | ⟨_, rfl⟩
      · cases stage
      · cases stage
      · decide
  refine (elf_prepare_stack_reads_back_iff (by decide) (by decide +kernel) noWrap).mpr fun i s reached => ?_
  refine ⟨?_, fun n length => ?_⟩
  · rcases twoArguments_stages reached with ⟨stage, rfl⟩ | ⟨stage, rfl⟩ | ⟨stage, _⟩
    · rfl
    · cases Nat.succ.inj stage
      decide +kernel
    · cases stage
  · cases Option.some.inj (length.symm.trans (twoArguments_size reached))
    rcases twoArguments_stages reached with ⟨stage, rfl⟩ | ⟨stage, rfl⟩ | ⟨stage, _⟩
    · cases Nat.succ.inj stage
      decide +kernel
    · cases Nat.succ.inj stage
      decide +kernel
    · cases stage

end LearningOS
