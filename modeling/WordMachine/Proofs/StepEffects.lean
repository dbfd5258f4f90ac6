import WordMachine.Proofs.StackEffects

/-!
What a step does to the two stacks. It does what the table of effects says for the instruction that
it carries out, or fails for one of the reasons told here, the first of them that applies.
-/

namespace WordMachine

namespace Instruction

variable {i : Instruction} {m : Machine} {taken : List Word} {e : Fault}

/-- All the reasons for which an instruction fails on the operands it takes. -/
theorem objection?_eq_some_iff (ht : taken.length = i.opcode.stackEffect.takes) :
    i.objection? m taken = some e ↔
      i.opcode ∈ [.rpop, .rcopy, .rcopy2] ∧
          m.returns.items.length < i.opcode.stackEffect.takesReturns ∧
          .stack .returns .underflow m.site = e ∨
        i.opcode ∈ [.call, .callImm, .rpush] ∧ (i.opcode = .rpush ∨ m.pc < 0x10000) ∧
          m.returns.capacity ≤ m.returns.items.length ∧ .stack .returns .overflow m.site = e ∨
        i.opcode ∈ [.call, .callImm] ∧ 0x10000 ≤ m.pc ∧ .codeExhausted m.pc = e ∨
        i.opcode ∈ [.div, .mod] ∧ taken.getLast? = some 0 ∧ .divisionByZero m.site = e ∨
        ∃ offset length,
          (i.opcode, length) ∈ [(.loadWord, 2), (.storeWord, 2), (.loadByte, 1), (.storeByte, 1)] ∧
          taken.getLast? = some offset ∧ m.code.holds offset.address length = false ∧
          .outOfBounds i.opcode offset.address m.code.size m.site = e := by
  obtain ⟨op, immediate⟩ := i
  cases op with
  | div | mod =>
    match taken, ht with
    | [l, r], _ => simp [objection?]
  | loadWord | loadByte =>
    match taken, ht with
    | [offset], _ => simp [objection?]
  | storeWord | storeByte =>
    match taken, ht with
    | [w, offset], _ => simp [objection?]
  | call | callImm =>
    by_cases hp : m.pc < 0x10000
    · simp [objection?, hp, Nat.not_le.mpr hp]
    · simp [objection?, hp, Nat.le_of_not_lt hp]
  | rpush =>
    simp [objection?]
  | rpop | rcopy | rcopy2 =>
    simp [objection?, Opcode.stackEffect]
  | _ => simp [objection?]

/-- Without an objection there are as many return addresses as the instruction takes; only a return
does with fewer, and ends the run. -/
theorem length_returned (h : i.objection? m taken = none) :
    (i.returned m).length = i.opcode.stackEffect.takesReturns ∨
      i.opcode = .ret ∧ m.returns.items = [] := by
  obtain ⟨op, immediate⟩ := i
  have enough : m.returns.items.length < op.stackEffect.takesReturns →
      op = .ret ∧ m.returns.items = [] := by
    intro hlt
    cases op with
    | rpop | rcopy | rcopy2 =>
      simp only [objection?, Opcode.stackEffect] at h hlt
      rw [if_pos hlt] at h
      cases h
    | ret => exact ⟨rfl, List.length_eq_zero_iff.mp (Nat.lt_one_iff.mp hlt)⟩
    | _ => exact absurd hlt (Nat.not_lt_zero _)
  rcases Nat.lt_or_ge m.returns.items.length op.stackEffect.takesReturns with hlt | hge
  · exact .inr (enough hlt)
  · exact .inl (by rw [returned, List.length_reverse, List.length_take, Nat.min_eq_left hge])

/-- The table of sizes fits the table of words. -/
theorem length_leaves (hl : i.opcode ≠ .loadModule) (ht : taken.length = i.opcode.stackEffect.takes)
    (h : i.objection? m taken = none) :
    (i.leaves m.code taken (i.returned m)).length = i.opcode.stackEffect.leaves ∧
      (i.leavesReturns m.pc taken (i.returned m)).length = i.opcode.stackEffect.leavesReturns := by
  have hr := length_returned h
  generalize i.returned m = returned at hr
  obtain ⟨op, immediate⟩ := i
  cases op with
  | nop | jumpImm | pushImm | callImm | ret => exact ⟨rfl, rfl⟩
  | inc | jump | btrueImm | bfalseImm | drop | dup | call | rpush =>
    match taken, ht with
    | [a], _ => exact ⟨rfl, rfl⟩
  | add | sub | mul | div | mod | shl | shr | gt | lt | ge | le | eq | neq | btrue | bfalse
  | storeWord | storeByte | drop2 | swap | «over» | dup2 | externCall =>
    match taken, ht with
    | [l, r], _ => exact ⟨rfl, rfl⟩
  | choose | rot =>
    match taken, ht with
    | [a, b, c], _ => exact ⟨rfl, rfl⟩
  | swap2 | over2 =>
    match taken, ht with
    | [a, b, c, d], _ => exact ⟨rfl, rfl⟩
  | loadWord =>
    match taken, ht with
    | [offset], _ =>
      have hh : m.code.holds offset.address 2 = true := by simpa [objection?] using h
      rw [← Code.isSome_readWord?] at hh
      obtain ⟨w, hw⟩ := Option.isSome_iff_exists.mp hh
      show (m.code.readWord? offset.address).toList.length = 1 ∧ _
      rw [hw]
      exact ⟨rfl, rfl⟩
  | loadByte =>
    match taken, ht with
    | [offset], _ =>
      have hh : m.code.holds offset.address 1 = true := by simpa [objection?] using h
      rw [← Code.isSome_readByte?] at hh
      obtain ⟨b, hb⟩ := Option.isSome_iff_exists.mp hh
      show ((m.code.readByte? offset.address).map Word.ofByte).toList.length = 1 ∧ _
      rw [hb]
      exact ⟨rfl, rfl⟩
  | loadModule => exact absurd rfl hl
  | rpop | rcopy =>
    match returned, hr with
    | [a], _ => exact ⟨rfl, rfl⟩
  | rcopy2 =>
    match returned, hr with
    | [a, b], _ => exact ⟨rfl, rfl⟩

end Instruction

namespace Machine

open Instruction (decode)

variable {m : Machine} {i : Instruction} {e : Fault}

/-- The operands an instruction takes, the top on the right. -/
def taken (m : Machine) (i : Instruction) : List Word :=
  (m.operands.items.take i.opcode.stackEffect.takes).reverse

theorem length_taken (h : i.opcode.stackEffect.takes ≤ m.operands.items.length) :
    (m.taken i).length = i.opcode.stackEffect.takes := by
  rw [taken, List.length_reverse, List.length_take, Nat.min_eq_left h]

theorem getLast?_taken (h : 0 < i.opcode.stackEffect.takes) :
    (m.taken i).getLast? = m.operands.items.head? := by
  rw [taken, List.getLast?_reverse, List.head?_take, if_neg (Nat.ne_of_gt h)]

/-- An instruction that leaves more words than it takes objects only to a lack of return
addresses. -/
theorem objection?_taken_of_growing (hge : i.opcode.stackEffect.takes ≤ m.operands.items.length)
    (hg : i.opcode.stackEffect.takes < i.opcode.stackEffect.leaves) :
    i.objection? (m.past i.size) (m.taken i) = none ↔
      ¬ (i.opcode ∈ [.rpop, .rcopy, .rcopy2] ∧
        m.returns.items.length < i.opcode.stackEffect.takesReturns) := by
  -- All other opcodes that may object leave no more words than they take.
  have grows {ops : List Opcode}
      (h : ∀ op ∈ ops, op.stackEffect.leaves ≤ op.stackEffect.takes) : i.opcode ∉ ops :=
    fun hi => absurd hg (Nat.not_lt.mpr (h _ hi))
  rw [Option.eq_none_iff_forall_ne_some]
  refine ⟨fun h hr => h _ ((Instruction.objection?_eq_some_iff (length_taken hge)).mpr
    (.inl ⟨hr.1, hr.2, rfl⟩)), fun h e he => ?_⟩
  rcases (Instruction.objection?_eq_some_iff (length_taken hge)).mp he with
    hr | hf | hp | hz | ⟨offset, length, hm, -⟩
  · exact h ⟨hr.1, hr.2.1⟩
  · exact grows (by decide) hf.1
  · exact grows (by decide) hp.1
  · exact grows (by decide) hz.1
  · have hmem : i.opcode ∈ [.loadWord, .storeWord, .loadByte, .storeByte] :=
      List.mem_map_of_mem (f := Prod.fst) hm
    exact grows (by decide) hmem

section Steps

variable (hd : decode m.code.toList m.pc = .ok i)
  (hw : m.operands.items.length ≤ m.operands.capacity) (hl : i.opcode ≠ .loadModule)
  (hx : i.opcode ≠ .externCall)

include hd hw hl hx

/-- How the two stacks fare in a step. -/
theorem stackItems_step :
    Routine.stackItems m.step =
      if m.operands.items.length < i.opcode.stackEffect.takes then
        .error (.stack .operands .underflow m.pc)
      else
        match i.result (m.past i.size) (m.taken i) with
        | .error e => .error e
        | .ok (left, returns) =>
          if m.operands.items.length - i.opcode.stackEffect.takes + left.length ≤
              m.operands.capacity then
            .ok (left.reverse ++ m.operands.items.drop i.opcode.stackEffect.takes, returns)
          else .error (.stack .operands .overflow m.pc) := by
  rw [step_of_decode hd]
  exact Routine.exchanges_routine i (m.past i.size) hl hx hw

/-- A step fails for a lack of operands, on an objection, or for a lack of room for operands, in
this order. -/
theorem step_eq_error_iff_objection :
    m.step.1 = .error e ↔
      m.operands.items.length < i.opcode.stackEffect.takes ∧
          .stack .operands .underflow m.pc = e ∨
        i.opcode.stackEffect.takes ≤ m.operands.items.length ∧
          (i.objection? (m.past i.size) (m.taken i) = some e ∨
            i.objection? (m.past i.size) (m.taken i) = none ∧
              m.operands.capacity < m.operands.items.length - i.opcode.stackEffect.takes +
                i.opcode.stackEffect.leaves ∧
              .stack .operands .overflow m.pc = e) := by
  have he : m.step.1 = .error e ↔ Routine.stackItems m.step = .error e := by
    unfold Routine.stackItems
    cases m.step.1 <;> simp [Except.map]
  rw [he, stackItems_step hd hw hl hx]
  rcases Nat.lt_or_ge m.operands.items.length i.opcode.stackEffect.takes with hlt | hge
  · simp [hlt, Nat.not_le.mpr hlt]
  · cases ho : i.objection? (m.past i.size) (m.taken i) with
    | some e' => simp [Routine.result_of_objection ho, hge, Nat.not_lt.mpr hge]
    | none =>
      have hlen := (Instruction.length_leaves hl (length_taken hge) ho).1
      rw [Routine.result_of_none ho]
      dsimp only
      rw [hlen]
      rcases Nat.lt_or_ge m.operands.capacity (m.operands.items.length -
        i.opcode.stackEffect.takes + i.opcode.stackEffect.leaves) with hf | hf
      · simp [hge, Nat.not_lt.mpr hge, hf, Nat.not_le.mpr hf]
      · simp [hge, Nat.not_lt.mpr hge, hf, Nat.not_lt.mpr hf]

/-- All the ways in which a step fails, with their reasons. -/
theorem step_eq_error_iff :
    m.step.1 = .error e ↔
      m.operands.items.length < i.opcode.stackEffect.takes ∧
          .stack .operands .underflow m.pc = e ∨
        i.opcode.stackEffect.takes ≤ m.operands.items.length ∧
          (i.opcode ∈ [.rpop, .rcopy, .rcopy2] ∧
              m.returns.items.length < i.opcode.stackEffect.takesReturns ∧
              .stack .returns .underflow m.pc = e ∨
            i.opcode ∈ [.call, .callImm, .rpush] ∧
              (i.opcode = .rpush ∨ m.pc + i.size < 0x10000) ∧
              m.returns.capacity ≤ m.returns.items.length ∧ .stack .returns .overflow m.pc = e ∨
            i.opcode ∈ [.call, .callImm] ∧ 0x10000 ≤ m.pc + i.size ∧
              .codeExhausted (m.pc + i.size) = e ∨
            i.opcode ∈ [.div, .mod] ∧ m.operands.items.head? = some 0 ∧ .divisionByZero m.pc = e ∨
            (∃ offset length, (i.opcode, length) ∈
                [(.loadWord, 2), (.storeWord, 2), (.loadByte, 1), (.storeByte, 1)] ∧
              m.operands.items.head? = some offset ∧
              m.code.holds offset.address length = false ∧
              .outOfBounds i.opcode offset.address m.code.size m.pc = e) ∨
            ¬ (i.opcode ∈ [.rpop, .rcopy, .rcopy2] ∧
                m.returns.items.length < i.opcode.stackEffect.takesReturns) ∧
              m.operands.capacity < m.operands.items.length - i.opcode.stackEffect.takes +
                i.opcode.stackEffect.leaves ∧
              .stack .operands .overflow m.pc = e) := by
  rw [step_eq_error_iff_objection hd hw hl hx]
  refine or_congr_right (and_congr_right fun hge => ?_)
  -- What is last among the words taken is on top of the stack, if any are taken.
  have top {ops : List Opcode} (hops : ∀ op ∈ ops, 0 < op.stackEffect.takes) (hi : i.opcode ∈ ops) :
      (m.taken i).getLast? = m.operands.items.head? :=
    getLast?_taken (hops _ hi)
  rw [Instruction.objection?_eq_some_iff (length_taken hge), and_congr_left fun hf =>
    objection?_taken_of_growing hge (by omega)]
  simp only [or_assoc]
  refine or_congr_right (or_congr_right (or_congr_right (or_congr ?_ (or_congr_left ?_))))
  · exact and_congr_right fun hi => by
      rw [top (by decide) hi]
      rfl
  · refine exists_congr fun offset => exists_congr fun length => and_congr_right fun hm => ?_
    have hi : i.opcode ∈ [.loadWord, .storeWord, .loadByte, .storeByte] :=
      List.mem_map_of_mem (f := Prod.fst) hm
    rw [top (by decide) hi]
    rfl

/-- What a step that does not fail makes of the two stacks. -/
theorem step_eq_ok {flow : Flow} {k : Machine} (h : m.step = (.ok flow, k)) :
    i.opcode.stackEffect.takes ≤ m.operands.items.length ∧
      i.objection? (m.past i.size) (m.taken i) = none ∧
      k.operands.items = (i.leaves m.code (m.taken i) (i.returned m)).reverse ++
        m.operands.items.drop i.opcode.stackEffect.takes ∧
      k.returns.items = (i.leavesReturns (m.pc + i.size) (m.taken i) (i.returned m)).reverse ++
        m.returns.items.drop i.opcode.stackEffect.takesReturns := by
  have hne (e : Fault) : m.step.1 ≠ .error e := by
    rw [h]
    nofun
  have hge : i.opcode.stackEffect.takes ≤ m.operands.items.length :=
    Nat.le_of_not_lt fun hlt =>
      hne _ ((step_eq_error_iff_objection hd hw hl hx).mpr (.inl ⟨hlt, rfl⟩))
  have ho : i.objection? (m.past i.size) (m.taken i) = none :=
    Option.eq_none_iff_forall_ne_some.mpr fun e ho =>
      hne e ((step_eq_error_iff_objection hd hw hl hx).mpr (.inr ⟨hge, .inl ho⟩))
  have hs : Routine.stackItems m.step = .ok (k.operands.items, k.returns.items) := by
    rw [h]
    rfl
  rw [stackItems_step hd hw hl hx, if_neg (Nat.not_lt.mpr hge), Routine.result_of_none ho] at hs
  dsimp only at hs
  split at hs
  · obtain ⟨hk, hr⟩ := Prod.mk.inj (Except.ok.inj hs)
    exact ⟨hge, ho, hk.symm, hr.symm⟩
  · cases hs

end Steps

/-- What the table of effects says of a step that carries out an instruction. -/
structure FollowsEffect (m : Machine) (i : Instruction) : Prop where
  operandUnderflow : m.step.1 = .error (.stack .operands .underflow m.pc) ↔
    m.operands.items.length < i.opcode.stackEffect.takes
  returnUnderflow : m.step.1 = .error (.stack .returns .underflow m.pc) ↔
    i.opcode ∈ [.rpop, .rcopy, .rcopy2] ∧
      m.returns.items.length < i.opcode.stackEffect.takesReturns
  operandOverflow : m.step.1 = .error (.stack .operands .overflow m.pc) ↔
    i.opcode.stackEffect.takes ≤ m.operands.items.length ∧
      ¬ (i.opcode ∈ [.rpop, .rcopy, .rcopy2] ∧
        m.returns.items.length < i.opcode.stackEffect.takesReturns) ∧
      m.operands.capacity < m.operands.items.length - i.opcode.stackEffect.takes +
        i.opcode.stackEffect.leaves
  returnOverflow : m.step.1 = .error (.stack .returns .overflow m.pc) ↔
    i.opcode.stackEffect.takes ≤ m.operands.items.length ∧
      i.opcode ∈ [.call, .callImm, .rpush] ∧
      (i.opcode = .rpush ∨ m.pc + i.size < 0x10000) ∧
      m.returns.capacity ≤ m.returns.items.length
  /-- Words cannot hold where the call would return to. -/
  noWayBack : m.step.1 = .error (.codeExhausted (m.pc + i.size)) ↔
    i.opcode.stackEffect.takes ≤ m.operands.items.length ∧
      i.opcode ∈ [.call, .callImm] ∧ 0x10000 ≤ m.pc + i.size
  divisionByZero : m.step.1 = .error (.divisionByZero m.pc) ↔
    i.opcode.stackEffect.takes ≤ m.operands.items.length ∧
      i.opcode ∈ [.div, .mod] ∧ m.operands.items.head? = some 0
  outOfBounds (offset : Word) :
    m.step.1 = .error (.outOfBounds i.opcode offset.address m.code.size m.pc) ↔
      i.opcode.stackEffect.takes ≤ m.operands.items.length ∧
        m.operands.items.head? = some offset ∧
        ∃ length,
          (i.opcode, length) ∈ [(.loadWord, 2), (.storeWord, 2), (.loadByte, 1), (.storeByte, 1)] ∧
          m.code.holds offset.address length = false
  /-- There is no other way to fail. -/
  fails (e : Fault) (h : m.step.1 = .error e) :
    e ∈ [.stack .operands .underflow m.pc, .stack .returns .underflow m.pc,
        .stack .operands .overflow m.pc, .stack .returns .overflow m.pc,
        .codeExhausted (m.pc + i.size), .divisionByZero m.pc] ∨
      ∃ offset : Word, e = .outOfBounds i.opcode offset.address m.code.size m.pc
  /-- The words taken stand on top, those left stand where they stood, and all below stays. Only a
  return that ends the run finds fewer return addresses than it takes. -/
  succeeds (flow : Flow) (k : Machine) (h : m.step = (.ok flow, k)) :
    ∃ below taken returnsBelow returned,
      m.operands.toList = below ++ taken ∧ taken.length = i.opcode.stackEffect.takes ∧
      m.returns.toList = returnsBelow ++ returned ∧
      (returned.length = i.opcode.stackEffect.takesReturns ∨
        i.opcode = .ret ∧ m.returns.toList = []) ∧
      k.operands.toList = below ++ i.leaves m.code taken returned ∧
      (i.leaves m.code taken returned).length = i.opcode.stackEffect.leaves ∧
      k.returns.toList = returnsBelow ++ i.leavesReturns (m.pc + i.size) taken returned ∧
      (i.leavesReturns (m.pc + i.size) taken returned).length =
        i.opcode.stackEffect.leavesReturns

/-- A step that carries out an instruction other than `load_module` and `extern_call` does to the
stacks what the table of effects says, and fails exactly for the reasons it gives. -/
theorem step_follows_effect (m : Machine) (i : Instruction)
    (hd : decode m.code.toList m.pc = .ok i)
    (hw : m.operands.items.length ≤ m.operands.capacity) (hl : i.opcode ≠ .loadModule)
    (hx : i.opcode ≠ .externCall) : m.FollowsEffect i where
  operandUnderflow := by
    rw [step_eq_error_iff hd hw hl hx]
    simp
  returnUnderflow := by
    have none_taken : ∀ op ∈ [Opcode.rpop, .rcopy, .rcopy2], op.stackEffect.takes = 0 := by decide
    have hge (h : i.opcode ∈ [.rpop, .rcopy, .rcopy2]) :
        i.opcode.stackEffect.takes ≤ m.operands.items.length :=
      none_taken _ h ▸ Nat.zero_le _
    rw [step_eq_error_iff hd hw hl hx]
    simpa using fun h _ => hge (by simpa using h)
  operandOverflow := by
    rw [step_eq_error_iff hd hw hl hx]
    simp
  returnOverflow := by
    rw [step_eq_error_iff hd hw hl hx]
    simp
  noWayBack := by
    rw [step_eq_error_iff hd hw hl hx]
    simp
  divisionByZero := by
    rw [step_eq_error_iff hd hw hl hx]
    simp
  outOfBounds offset := by
    rw [step_eq_error_iff hd hw hl hx]
    simp only [Fault.outOfBounds.injEq, Word.address_inj, reduceCtorEq, true_and, and_true,
      and_false, false_or, or_false, and_congr_right_iff]
    refine fun _ => ⟨?_, ?_⟩
    · rintro ⟨_, length, hm, htop, hout, rfl⟩
      exact ⟨htop, length, hm, hout⟩
    · rintro ⟨htop, length, hm, hout⟩
      exact ⟨offset, length, hm, htop, hout, rfl⟩
  fails e h := by
    rcases (step_eq_error_iff hd hw hl hx).mp h with
      ⟨-, rfl⟩ | ⟨-, ⟨-, -, rfl⟩ | ⟨-, -, -, rfl⟩ | ⟨-, -, rfl⟩ | ⟨-, -, rfl⟩ |
        ⟨offset, _, -, -, -, rfl⟩ | ⟨-, -, rfl⟩⟩
    case inr.inr.inr.inr.inr.inl => exact .inr ⟨offset, rfl⟩
    all_goals exact .inl (by simp)
  succeeds flow k h := by
    obtain ⟨hge, ho, hk, hr⟩ := step_eq_ok hd hw hl hx h
    obtain ⟨hlen, hlenr⟩ := Instruction.length_leaves hl (length_taken hge) ho
    refine ⟨(m.operands.items.drop i.opcode.stackEffect.takes).reverse, m.taken i,
      (m.returns.items.drop i.opcode.stackEffect.takesReturns).reverse, i.returned m,
      ?_, length_taken hge, ?_, ?_, ?_, hlen, ?_, hlenr⟩
    · rw [taken, ← List.reverse_append, List.take_append_drop, Stack.toList]
    · rw [Instruction.returned, ← List.reverse_append, List.take_append_drop, Stack.toList]
    · refine (Instruction.length_returned ho).imp_right fun h => ⟨h.1, ?_⟩
      rw [Stack.toList, ← returns_past m i.size, h.2, List.reverse_nil]
    · rw [Stack.toList, hk, List.reverse_append, List.reverse_reverse]
    · rw [Stack.toList, hr, List.reverse_append, List.reverse_reverse]

/-- Four operands are there, but only one of the two words to be copied finds room. -/
theorem step_follows_effect_of_over2 :
    let m : Machine := {
      operands := { items := [4, 3, 2, 1], capacity := 5 }, returns := .empty 1
      images := #[⟨"m", [], #[Opcode.over2.byte]⟩] }
    decode m.code.toList m.pc = .ok ⟨.over2, none⟩ ∧
      m.operands.items.length ≤ m.operands.capacity ∧ m.FollowsEffect ⟨.over2, none⟩ ∧
      m.step.1 = .error (.stack .operands .overflow 0) := by
  intro m
  have hd : decode m.code.toList m.pc = .ok ⟨.over2, none⟩ := by rfl
  have hw : m.operands.items.length ≤ m.operands.capacity := by decide
  have h : m.FollowsEffect ⟨.over2, none⟩ := step_follows_effect m _ hd hw nofun nofun
  exact ⟨hd, hw, h, h.operandOverflow.mpr (by decide)⟩

end Machine

end WordMachine
