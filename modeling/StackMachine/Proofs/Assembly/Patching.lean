import Mathlib.Data.List.Induction
import Mathlib.Data.List.Nodup
import StackMachine.Proofs.Assembly.Labels

/-!
# What finishing a draft decides

The directives of a program tell by themselves whether it can be finished.  They must not bind a
label again, and each label that a branch names must be bound somewhere, before the branch or after
it.  The first directive that breaks the first rule is reported, else the first that breaks the
second.

The bytes of a finished program are those that the directives emitted, but for the placeholders of
the branches, which hold the places of their labels.  The placeholders of a draft lie inside its
code, and writing over them does not change its length, so each is still there when its turn comes.

The directives are taken off at the end of a program, because that is where a draft grows.
-/

namespace StackMachine.Assembly

namespace Directive

/-- The bytes that a directive emits when it is made.  A branch does not know its target yet. -/
def emitted (directive : Directive) : Bytes := directive.encode fun _ => none

/-- The label that a directive binds. -/
def binds? : Directive → Option String
  | .label name => some name
  | _ => none

variable {directive : Directive} {place? : String → Option Nat} {name : String}

theorem missing?_eq_some_iff :
    directive.missing? place? = some name ↔
      ∃ kind, directive = .branch kind name ∧ place? name = none := by
  cases directive with
  | branch kind other =>
      cases placed : place? other with
      | none =>
          simp only [missing?, placed, Option.isNone_none, if_true, Option.some.injEq,
            Directive.branch.injEq]
          constructor
          · rintro rfl
            exact ⟨kind, ⟨rfl, rfl⟩, placed⟩
          · rintro ⟨_, ⟨_, same⟩, _⟩
            exact same
      | some place =>
          simp only [missing?, placed, Option.isNone_some, Bool.false_eq_true, if_false,
            Directive.branch.injEq]
          constructor
          · intro impossible
            contradiction
          · rintro ⟨_, ⟨_, rfl⟩, unplaced⟩
            rw [placed] at unplaced
            contradiction
  | _ => simp [missing?]

end Directive

/-- The labels that directives bind, in order. -/
def labels (directives : List Directive) : List String :=
  directives.filterMap Directive.binds?

/-- The first directive that binds a label again binds `name`. -/
def FirstRebound (directives : List Directive) (name : String) : Prop :=
  ∃ before after, directives = before ++ .label name :: after ∧ (labels before).Nodup ∧
    name ∈ labels before

/-- The first branch to a label that no directive binds names `name`. -/
def FirstUnbound (directives : List Directive) (name : String) : Prop :=
  ∃ before kind after, directives = before ++ .branch kind name :: after ∧
    name ∉ labels directives ∧
    ∀ earlier other, .branch earlier other ∈ before → other ∈ labels directives

section Rebinding

variable {directives : List Directive} {directive : Directive} {name : String}

theorem labels_append (before after : List Directive) :
    labels (before ++ after) = labels before ++ labels after :=
  List.filterMap_append

theorem labels_concat_label (directives : List Directive) (name : String) :
    labels (directives ++ [.label name]) = labels directives ++ [name] :=
  labels_append directives [.label name]

theorem labels_concat_silent (silent : directive.binds? = none) :
    labels (directives ++ [directive]) = labels directives := by
  rw [labels_append, labels, labels, List.filterMap_cons_none silent, List.filterMap_nil,
    List.append_nil]

theorem Directive.label_or_silent (directive : Directive) :
    (∃ name, directive = .label name) ∨ directive.binds? = none := by
  cases directive with
  | label name => exact Or.inl ⟨name, rfl⟩
  | _ => exact Or.inr rfl

theorem firstRebound_concat :
    FirstRebound (directives ++ [directive]) name ↔
      FirstRebound directives name ∨
        directive = .label name ∧ (labels directives).Nodup ∧ name ∈ labels directives := by
  constructor
  · rintro ⟨before, after, same, distinct, again⟩
    cases after using List.reverseRecOn with
    | nil =>
        right
        rcases List.append_inj' same rfl with ⟨rfl, last⟩
        exact ⟨List.head_eq_of_cons_eq last, distinct, again⟩
    | append_singleton after last =>
        left
        have split : directives ++ [directive] = (before ++ .label name :: after) ++ [last] := by
          rw [same]
          simp
        rcases List.append_inj' split rfl with ⟨rfl, _⟩
        exact ⟨before, after, rfl, distinct, again⟩
  · rintro (⟨before, after, rfl, distinct, again⟩ | ⟨rfl, distinct, again⟩)
    · refine ⟨before, after ++ [directive], ?_, distinct, again⟩
      simp
    · exact ⟨directives, [], rfl, distinct, again⟩

/-- The labels are distinct exactly when there is no first one that is bound again. -/
theorem nodup_labels_iff : (labels directives).Nodup ↔ ∀ name, ¬ FirstRebound directives name := by
  induction directives using List.reverseRecOn with
  | nil => simp [labels, FirstRebound]
  | append_singleton directives directive ih =>
      simp only [firstRebound_concat, not_or, forall_and, ← ih]
      rcases directive.label_or_silent with ⟨name, rfl⟩ | silent
      · rw [labels_concat_label, ← List.concat_eq_append, List.nodup_concat]
        constructor
        · rintro ⟨fresh, distinct⟩
          refine ⟨distinct, ?_⟩
          rintro _ ⟨⟨rfl⟩, _, again⟩
          exact fresh again
        · rintro ⟨distinct, others⟩
          refine ⟨?_, distinct⟩
          intro again
          exact others name ⟨rfl, distinct, again⟩
      · rw [labels_concat_silent silent]
        constructor
        · intro distinct
          refine ⟨distinct, ?_⟩
          rintro name ⟨rfl, _⟩
          contradiction
        · exact And.left

end Rebinding

namespace Draft

variable {directives : List Directive} {directive : Directive} {name : String}

theorem appendAll_concat (draft : Draft) (directives : List Directive) (directive : Directive) :
    draft.appendAll (directives ++ [directive]) = (draft.appendAll directives).append directive :=
  draft.appendAll_append directives [directive]

theorem append_silent {draft : Draft} (silent : directive.binds? = none) :
    (draft.append directive).places = draft.places ∧
      (draft.append directive).duplicate? = draft.duplicate? := by
  cases directive with
  | label name => contradiction
  | _ => exact ⟨rfl, rfl⟩

theorem place?_append_label (draft : Draft) (bound name : String) :
    (draft.append (.label bound)).place? name =
      if name = bound then some draft.offset else draft.place? name := by
  by_cases same : name = bound
  · subst same
    simp [append, bind, place?]
  · have differs : (name == bound) = false := beq_false_of_ne same
    simp [append, bind, place?, List.lookup_cons, differs, same]

theorem place?_append_silent {draft : Draft} (silent : directive.binds? = none) (name : String) :
    (draft.append directive).place? name = draft.place? name :=
  congrArg (List.lookup name) (append_silent silent).1

/-- A draft knows a place for the labels that its directives bind, and for no others. -/
theorem place?_eq_none_iff :
    (empty.appendAll directives).place? name = none ↔ name ∉ labels directives := by
  induction directives using List.reverseRecOn with
  | nil => simp [appendAll, empty, place?, labels]
  | append_singleton directives directive ih =>
      rw [appendAll_concat]
      rcases directive.label_or_silent with ⟨bound, rfl⟩ | silent
      · rw [place?_append_label, labels_concat_label, List.mem_append, List.mem_singleton, not_or,
          ← ih]
        by_cases same : name = bound
        · simp [same]
        · simp [same]
      · rw [place?_append_silent silent, labels_concat_silent silent, ih]

theorem duplicate?_append_label (draft : Draft) (bound : String) :
    (draft.append (.label bound)).duplicate? = some name ↔
      draft.duplicate? = some name ∨
        bound = name ∧ draft.duplicate? = none ∧ draft.place? name ≠ none := by
  simp only [append, bind, Option.orElse_eq_some]
  apply or_congr_right
  by_cases same : bound = name
  · subst same
    cases draft.place? bound with
    | none => simp
    | some place => simp
  · simp [same]

theorem duplicate?_eq_some_iff :
    (empty.appendAll directives).duplicate? = some name ↔ FirstRebound directives name := by
  induction directives using List.reverseRecOn generalizing name with
  | nil => simp [appendAll, empty, FirstRebound]
  | append_singleton directives directive ih =>
      rw [appendAll_concat, firstRebound_concat]
      rcases directive.label_or_silent with ⟨bound, rfl⟩ | silent
      · have distinct : (empty.appendAll directives).duplicate? = none ↔
            (labels directives).Nodup := by
          rw [nodup_labels_iff, Option.eq_none_iff_forall_ne_some]
          exact forall_congr' fun _ => not_congr ih
        rw [duplicate?_append_label, ih, distinct, ne_eq, place?_eq_none_iff, not_not,
          Directive.label.injEq]
      · have unlike : directive ≠ .label name := by
          rintro rfl
          contradiction
        simp [(append_silent silent).2, ih, unlike]

theorem duplicate?_eq_none_iff :
    (empty.appendAll directives).duplicate? = none ↔ ∀ name, ¬ FirstRebound directives name := by
  simp only [← duplicate?_eq_some_iff, Option.eq_none_iff_forall_ne_some, ne_eq]

/-- The first branch to a label without a place is the first to a label that nothing binds. -/
theorem findSome?_missing?_eq_some_iff :
    directives.findSome? (Directive.missing? (empty.appendAll directives).place?) = some name ↔
      FirstUnbound directives name := by
  rw [List.findSome?_eq_some_iff]
  constructor
  · rintro ⟨before, directive, after, split, misses, found⟩
    rcases Directive.missing?_eq_some_iff.mp misses with ⟨kind, rfl, unplaced⟩
    refine ⟨before, kind, after, split, place?_eq_none_iff.mp unplaced, ?_⟩
    intro earlier other member
    by_contra unbound
    have missing : (Directive.branch earlier other).missing?
        (empty.appendAll directives).place? = some other :=
      Directive.missing?_eq_some_iff.mpr ⟨earlier, rfl, place?_eq_none_iff.mpr unbound⟩
    rw [found _ member] at missing
    contradiction
  · rintro ⟨before, kind, after, split, unbound, bound⟩
    refine ⟨before, _, after, split, ?_, ?_⟩
    · apply Directive.missing?_eq_some_iff.mpr
      exact ⟨kind, rfl, place?_eq_none_iff.mpr unbound⟩
    · intro directive member
      apply Option.eq_none_iff_forall_ne_some.mpr
      intro other misses
      rcases Directive.missing?_eq_some_iff.mp misses with ⟨earlier, rfl, unplaced⟩
      exact place?_eq_none_iff.mp unplaced (bound earlier other member)

end Draft

section Sites

variable {draft : Draft} {directives : List Directive} {directive : Directive} {name : String}
  {offset place : Nat}

theorem Draft.mem_sites_iff :
    (offset, directive) ∈ draft.sites directives ↔
      ∃ before after, directives = before ++ directive :: after ∧
        offset = (draft.appendAll before).offset := by
  induction directives generalizing draft with
  | nil => simp [Draft.sites]
  | cons first rest ih =>
      rw [Draft.sites, List.mem_cons, ih]
      constructor
      · rintro (same | ⟨before, after, rfl, here⟩)
        · rcases Prod.mk.inj same with ⟨rfl, rfl⟩
          exact ⟨[], rest, rfl, rfl⟩
        · exact ⟨first :: before, after, rfl, here⟩
      · rintro ⟨before, after, split, here⟩
        cases before with
        | nil =>
            rcases List.cons.inj split with ⟨rfl, rfl⟩
            left
            rw [here]
            rfl
        | cons _ before =>
            rcases List.cons.inj split with ⟨rfl, rfl⟩
            exact Or.inr ⟨before, after, rfl, here⟩

theorem Draft.place?_appendAll_of_not_mem (unbound : name ∉ labels directives) :
    (draft.appendAll directives).place? name = draft.place? name := by
  induction directives using List.reverseRecOn with
  | nil => rfl
  | append_singleton directives directive ih =>
      rw [appendAll_concat]
      rcases directive.label_or_silent with ⟨bound, rfl⟩ | silent
      · rw [labels_concat_label, List.mem_append, not_or, List.mem_singleton] at unbound
        rw [place?_append_label, if_neg unbound.2]
        exact ih unbound.1
      · rw [labels_concat_silent silent] at unbound
        rw [place?_append_silent silent]
        exact ih unbound

/-- When no label is bound again, each has the place at which it is bound. -/
theorem Draft.place?_of_mem_sites (distinct : (labels directives).Nodup)
    (made : (place, .label name) ∈ empty.sites directives) :
    (empty.appendAll directives).place? name = some place := by
  rcases mem_sites_iff.mp made with ⟨before, after, rfl, here⟩
  rw [labels_append] at distinct
  have fresh : name ∉ labels after := by
    have rest := (List.nodup_append.mp distinct).2.1
    exact (List.nodup_cons.mp rest).1
  rw [appendAll_append, appendAll_cons, place?_appendAll_of_not_mem fresh, place?_append_label,
    if_pos rfl, here]

theorem exists_site_of_mem_labels (member : name ∈ labels directives) :
    ∃ place, (place, .label name) ∈ Draft.empty.sites directives := by
  rcases List.mem_filterMap.mp member with ⟨directive, among, binds⟩
  cases directive with
  | label other =>
      rcases Option.some.inj binds with rfl
      rcases List.mem_iff_append.mp among with ⟨before, after, split⟩
      exact ⟨_, Draft.mem_sites_iff.mpr ⟨before, after, split, rfl⟩⟩
  | _ => contradiction

end Sites

section Bytes

variable {directives : List Directive} {name : String} {kind : Branch}
  {place? other? : String → Option Nat} {offset place index : Nat}

theorem bytes_ofNat (value : Nat) :
    Word.bytes (UInt64.ofNat value) = LittleEndian.encode Word.size value := by
  have again := LittleEndian.encode_decode (LittleEndian.encode Word.size value)
  rw [LittleEndian.length_encode, LittleEndian.decode_encode] at again
  rw [Word.bytes, UInt64.toNat_ofNat']
  exact again

/-- The bytes behind the opcode of a branch are the place of its label. -/
theorem target_of_mem_sites (made : (offset, .branch kind name) ∈ Draft.empty.sites directives)
    (placed : place? name = some place) :
    ((directives.flatMap (Directive.encode place?)).drop (offset + 1)).take Word.size =
      LittleEndian.encode Word.size place := by
  rcases Draft.mem_sites_iff.mp made with ⟨before, after, rfl, here⟩
  have front : offset = (before.flatMap (Directive.encode place?)).length := by
    rw [here, Draft.offset_appendAll place?]
    apply Nat.zero_add
  have written : Directive.encode place? (.branch kind name) =
      kind.opcode.byte :: LittleEndian.encode Word.size place := by
    simp [Directive.encode, placed, Opcode.encode, kind.operandKind?, bytes_ofNat]
  rw [List.flatMap_append, List.flatMap_cons, written, front, List.drop_length_add_append,
    List.cons_append, List.drop_succ_cons, List.drop_zero]
  apply List.take_left'
  exact LittleEndian.length_encode Word.size place

/-- Only the bytes behind the opcodes of branches depend on the places of labels. -/
theorem getElem?_flatMap_encode_eq (draft : Draft)
    (outside : ∀ offset kind name, (offset, .branch kind name) ∈ draft.sites directives →
      ¬ (offset + 1 ≤ draft.offset + index ∧ draft.offset + index < offset + 1 + Word.size)) :
    (directives.flatMap (Directive.encode place?))[index]? =
      (directives.flatMap (Directive.encode other?))[index]? := by
  induction directives generalizing draft index with
  | nil => rfl
  | cons directive rest ih =>
      have width := directive.length_encode_eq place? other?
      rw [List.flatMap_cons, List.flatMap_cons]
      by_cases inside : index < (directive.encode place?).length
      · rw [List.getElem?_append_left inside, List.getElem?_append_left (width ▸ inside)]
        cases directive with
        | branch kind name =>
            have first : index = 0 := by
              have apart := outside draft.offset kind name List.mem_cons_self
              simp only [Directive.encode, Opcode.length_encode, Opcode.length,
                kind.operandKind?] at inside
              by_contra later
              apply apart
              simp only [Option.isSome_some, if_true] at inside
              omega
            rw [first]
            rfl
        | _ => rfl
      · rw [List.getElem?_append_right (by omega), List.getElem?_append_right (by omega), ← width]
        apply ih (draft.append directive)
        intro offset kind name made
        have apart := outside offset kind name (List.mem_cons_of_mem _ made)
        rw [Draft.offset_append place?]
        omega

end Bytes

section Bounds

variable {draft : Draft} {directives : List Directive} {references : List Reference}
  {reference : Reference} {code next : Bytes}

/-- A placeholder lies inside the code of its draft. -/
theorem position_le_offset
    (member : reference ∈ (Draft.empty.appendAll directives).references) :
    reference.position + Word.size ≤ (Draft.empty.appendAll directives).offset := by
  rw [Draft.references_appendAll] at member
  rcases List.mem_append.mp member with impossible | waits
  · contradiction
  · rcases List.mem_filterMap.mp waits with ⟨⟨offset, directive⟩, made, refers⟩
    rcases Directive.branch_of_reference? refers with ⟨position, kind, rfl⟩
    rcases Draft.mem_sites_iff.mp made with ⟨before, after, rfl, here⟩
    have operand : (Directive.encode (fun _ => none) (.branch kind reference.label)).length =
        1 + Word.size := by
      simp [Directive.encode, Opcode.length, kind.operandKind?]
    rw [Draft.appendAll_append, Draft.appendAll_cons, Draft.offset_appendAll fun _ => none,
      Draft.offset_append fun _ => none, operand, position, here]
    omega

theorem length_of_resolve (fits : reference.position + Word.size ≤ code.length)
    (resolved : draft.resolve code reference = .ok next) : next.length = code.length := by
  unfold Draft.resolve at resolved
  split at resolved
  · contradiction
  · rcases Except.ok.inj resolved with rfl
    simp only [Draft.overwrite, List.length_append, List.length_take, List.length_drop,
      Word.length_bytes]
    omega

theorem length_of_foldlM_resolve
    (fits : ∀ reference ∈ references, reference.position + Word.size ≤ code.length)
    (resolved : references.foldlM draft.resolve code = .ok next) : next.length = code.length := by
  induction references generalizing code with
  | nil =>
      rcases Except.ok.inj resolved with rfl
      rfl
  | cons reference rest ih =>
      rw [List.foldlM_cons, bind_eq_ok_iff] at resolved
      rcases List.forall_mem_cons.mp fits with ⟨first, others⟩
      rcases resolved with ⟨patched, once, later⟩
      have kept := length_of_resolve first once
      rw [← kept] at others ⊢
      exact ih others later

/-- As long as placeholders are resolved, the next one lies inside the code. -/
theorem position_le_of_foldlM_resolve {done rest : List Reference}
    (queued : (Draft.empty.appendAll directives).references = done ++ reference :: rest)
    (resolved : done.foldlM (Draft.empty.appendAll directives).resolve
      (Draft.empty.appendAll directives).code = .ok code) :
    reference.position + Word.size ≤ code.length := by
  have fits : ∀ waiting ∈ (Draft.empty.appendAll directives).references,
      waiting.position + Word.size ≤ (Draft.empty.appendAll directives).code.length := by
    intro waiting member
    exact position_le_offset member
  rw [queued] at fits
  rcases List.forall_mem_append.mp fits with ⟨earlier, later⟩
  rw [length_of_foldlM_resolve earlier resolved]
  apply later
  exact List.mem_cons_self

end Bounds

theorem getElem?_offsets (draft : Draft) (directives : List Directive) {index : Nat}
    (inside : index < directives.length) :
    (draft.offsets directives)[index]? =
      some (draft.offset + ((directives.take (index + 1)).flatMap Directive.emitted).length) := by
  induction directives generalizing draft index with
  | nil => contradiction
  | cons directive rest ih =>
      have step := draft.offset_append (fun _ => none) directive
      cases index with
      | zero => simp [Draft.offsets, step, Directive.emitted]
      | succ index =>
          have later := ih (draft.append directive) (Nat.lt_of_succ_lt_succ inside)
          simp [Draft.offsets, later, step, Directive.emitted, Nat.add_assoc]

section Outcomes

variable {directives : List Directive} {name : String} {code : Bytes}

theorem assemble_eq_duplicateLabel_iff :
    assemble directives = .error (.duplicateLabel name) ↔ FirstRebound directives name := by
  rw [assemble_eq, ← Draft.duplicate?_eq_some_iff]
  cases (Draft.empty.appendAll directives).duplicate? with
  | some label => simp
  | none =>
      simp only
      cases directives.findSome? (Directive.missing? (Draft.empty.appendAll directives).place?) with
      | some label => simp
      | none => simp

theorem assemble_of_distinct (distinct : ∀ other, ¬ FirstRebound directives other) :
    assemble directives =
      match directives.findSome? (Directive.missing? (Draft.empty.appendAll directives).place?) with
      | some label => .error (.undefinedLabel label)
      | none =>
          .ok (directives.flatMap
            (Directive.encode (Draft.empty.appendAll directives).place?)) := by
  have outcome := assemble_eq directives
  rw [Draft.duplicate?_eq_none_iff.mpr distinct] at outcome
  exact outcome

theorem assemble_eq_undefinedLabel_iff :
    assemble directives = .error (.undefinedLabel name) ↔
      (∀ other, ¬ FirstRebound directives other) ∧ FirstUnbound directives name := by
  by_cases distinct : ∀ other, ¬ FirstRebound directives other
  · rw [assemble_of_distinct distinct, ← Draft.findSome?_missing?_eq_some_iff]
    cases directives.findSome? (Directive.missing? (Draft.empty.appendAll directives).place?) with
    | some label => simp [distinct]
    | none => simp
  · have refused : assemble directives ≠ .error (.undefinedLabel name) := by
      rcases not_forall_not.mp distinct with ⟨other, rebound⟩
      rw [assemble_eq_duplicateLabel_iff.mpr rebound]
      simp
    simp [refused, distinct]

theorem exists_assemble_iff :
    (∃ code, assemble directives = .ok code) ↔
      (∀ other, ¬ FirstRebound directives other) ∧ ∀ other, ¬ FirstUnbound directives other := by
  by_cases distinct : ∀ other, ¬ FirstRebound directives other
  · simp only [assemble_of_distinct distinct, ← Draft.findSome?_missing?_eq_some_iff]
    cases directives.findSome? (Directive.missing? (Draft.empty.appendAll directives).place?) with
    | some label => simp
    | none => simp [distinct]
  · rcases not_forall_not.mp distinct with ⟨other, rebound⟩
    simp [assemble_eq_duplicateLabel_iff.mpr rebound, distinct]

theorem nodup_labels_of_assemble (assembled : assemble directives = .ok code) :
    (labels directives).Nodup := by
  apply nodup_labels_iff.mpr
  exact (exists_assemble_iff.mp ⟨code, assembled⟩).1

theorem mem_labels_of_assemble (assembled : assemble directives = .ok code) {offset : Nat}
    {kind : Branch} (made : (offset, .branch kind name) ∈ Draft.empty.sites directives) :
    name ∈ labels directives := by
  have complete := (eq_flatMap_of_assemble assembled).1
  have placed := List.findSome?_eq_none_iff.mp complete _ (Draft.mem_of_mem_sites made)
  by_contra unbound
  have misses := Directive.missing?_eq_some_iff.mpr
    ⟨kind, rfl, Draft.place?_eq_none_iff.mpr unbound⟩
  rw [placed] at misses
  contradiction

theorem place_le_offset {place : Nat}
    (bound : (place, .label name) ∈ Draft.empty.sites directives) :
    place ≤ (Draft.empty.appendAll directives).offset := by
  rcases Draft.mem_sites_iff.mp bound with ⟨before, after, rfl, here⟩
  rw [Draft.appendAll_append, Draft.offset_appendAll fun _ => none, here]
  apply Nat.le_add_right

section Finished

variable {offset place : Nat} {kind : Branch} (assembled : assemble directives = .ok code)

include assembled

theorem target_of_assemble (made : (offset, .branch kind name) ∈ Draft.empty.sites directives)
    (bound : (place, .label name) ∈ Draft.empty.sites directives) :
    (code.drop (offset + 1)).take Word.size = LittleEndian.encode Word.size place := by
  have placed := Draft.place?_of_mem_sites (nodup_labels_of_assemble assembled) bound
  rw [(eq_flatMap_of_assemble assembled).2]
  exact target_of_mem_sites made placed

theorem getElem?_of_assemble {index : Nat}
    (outside : ∀ offset kind name, (offset, .branch kind name) ∈ Draft.empty.sites directives →
      ¬ (offset + 1 ≤ index ∧ index < offset + 1 + Word.size)) :
    code[index]? = (Draft.empty.appendAll directives).code[index]? := by
  rw [(eq_flatMap_of_assemble assembled).2, Draft.code_appendAll]
  apply getElem?_flatMap_encode_eq Draft.empty
  intro offset kind name made
  have apart := outside offset kind name made
  rwa [← Nat.zero_add index] at apart

end Finished

end Outcomes

/-- The labels of a program decide whether it can be finished and what its branches aim at.

An offset of the draft is the number of bytes emitted so far.  The first directive that binds a
label again is reported before all else, then the first branch to a label that no directive binds.
A finished program has the bytes that were emitted, but behind the opcode of each branch the place
of its label.  Whatever has been resolved, the next placeholder lies inside the code. -/
theorem resolution_exact {directives : List Directive}
    (bounded : (Draft.empty.appendAll directives).offset < 2 ^ 63) :
    (∀ index < directives.length, (Draft.empty.offsets directives)[index]? =
      some ((directives.take (index + 1)).flatMap Directive.emitted).length) ∧
    (Draft.empty.appendAll directives).code = directives.flatMap Directive.emitted ∧
    (∀ name, assemble directives = .error (.duplicateLabel name) ↔
      FirstRebound directives name) ∧
    (∀ name, assemble directives = .error (.undefinedLabel name) ↔
      (∀ other, ¬ FirstRebound directives other) ∧ FirstUnbound directives name) ∧
    ((∃ code, assemble directives = .ok code) ↔
      (∀ other, ¬ FirstRebound directives other) ∧ ∀ other, ¬ FirstUnbound directives other) ∧
    (∀ code, assemble directives = .ok code →
      code.length = (Draft.empty.appendAll directives).offset ∧
      (∀ offset kind name, (offset, .branch kind name) ∈ Draft.empty.sites directives →
        (∃ place, (place, .label name) ∈ Draft.empty.sites directives) ∧
        ∀ place, (place, .label name) ∈ Draft.empty.sites directives →
          (code.drop (offset + 1)).take 8 = LittleEndian.encode 8 place ∧
          LittleEndian.decode ((code.drop (offset + 1)).take 8) = place) ∧
      ∀ index, (∀ offset kind name, (offset, .branch kind name) ∈ Draft.empty.sites directives →
          ¬ (offset + 1 ≤ index ∧ index < offset + 1 + 8)) →
        code[index]? = (Draft.empty.appendAll directives).code[index]?) ∧
    ∀ done reference rest partly,
      (Draft.empty.appendAll directives).references = done ++ reference :: rest →
      done.foldlM (Draft.empty.appendAll directives).resolve
        (Draft.empty.appendAll directives).code = .ok partly →
      reference.position + 8 ≤ partly.length := by
  refine ⟨?offsets, Draft.empty.code_appendAll directives,
    fun _ => assemble_eq_duplicateLabel_iff, fun _ => assemble_eq_undefinedLabel_iff,
    exists_assemble_iff, ?finished, fun _ _ _ _ => position_le_of_foldlM_resolve⟩
  case offsets =>
    intro index inside
    rw [getElem?_offsets _ _ inside]
    exact congrArg some (Nat.zero_add _)
  case finished =>
    intro code assembled
    refine ⟨length_of_assemble assembled, ?_, fun _ => getElem?_of_assemble assembled⟩
    intro offset kind name made
    refine ⟨exists_site_of_mem_labels (mem_labels_of_assemble assembled made), ?_⟩
    intro place bound
    have target : (code.drop (offset + 1)).take 8 = LittleEndian.encode 8 place :=
      target_of_assemble assembled made bound
    refine ⟨target, ?_⟩
    rw [target, LittleEndian.decode_encode]
    apply Nat.mod_eq_of_lt
    calc
      place ≤ (Draft.empty.appendAll directives).offset := place_le_offset bound
      _ < 2 ^ 63 := bounded
      _ < 256 ^ 8 := by decide

/-- Two branches that cross a byte without a meaning, one forwards and one backwards. -/
def crossing : List Directive :=
  [.label "top", .branch .jump "bottom", .raw [0xFF], .label "bottom", .branch .jumpIf "top"]

def crossingCode : Bytes :=
  Opcode.jump.encode (some 10) ++ 0xFF :: Opcode.jumpIf.encode (some 0)

/-- The branches are resolved around the byte.  A label bound again behind a branch to nowhere is
what is reported; without it the branch is. -/
theorem assemble_crossing :
    (Draft.empty.appendAll crossing).offset < 2 ^ 63 ∧
      assemble crossing = .ok crossingCode ∧
      (crossingCode.drop 1).take 8 = LittleEndian.encode 8 10 ∧
      (crossingCode.drop 11).take 8 = LittleEndian.encode 8 0 ∧
      crossingCode[9]? = (Draft.empty.appendAll crossing).code[9]? ∧
      assemble (crossing ++ [.branch .call "nowhere"]) = .error (.undefinedLabel "nowhere") ∧
      assemble (crossing ++ [.branch .call "nowhere", .label "top"]) =
        .error (.duplicateLabel "top") := by
  have assembled : assemble crossing = .ok crossingCode := by decide
  have bounded : (Draft.empty.appendAll crossing).offset < 2 ^ 63 := by decide
  rcases resolution_exact bounded with ⟨_, _, _, _, _, finished, _⟩
  rcases finished crossingCode assembled with ⟨_, aims, others⟩
  refine ⟨bounded, assembled, ?_, ?_, ?_, ?_, ?_⟩
  · exact ((aims 0 .jump "bottom" (by decide)).2 10 (by decide)).1
  · exact ((aims 10 .jumpIf "top" (by decide)).2 0 (by decide)).1
  · apply others 9
    intro offset kind name made
    have sites : Draft.empty.sites crossing = [(0, .label "top"), (0, .branch .jump "bottom"),
        (9, .raw [0xFF]), (10, .label "bottom"), (10, .branch .jumpIf "top")] := by decide
    simp only [sites, List.mem_cons, Prod.mk.injEq, reduceCtorEq, and_false, false_or,
      List.not_mem_nil, or_false] at made
    omega
  · have longer : (Draft.empty.appendAll
        (crossing ++ [.branch .call "nowhere"])).offset < 2 ^ 63 := by decide
    rcases resolution_exact longer with ⟨_, _, _, missing, _⟩
    apply (missing "nowhere").mpr
    exact ⟨Draft.duplicate?_eq_none_iff.mp rfl, Draft.findSome?_missing?_eq_some_iff.mp rfl⟩
  · have longer : (Draft.empty.appendAll
        (crossing ++ [.branch .call "nowhere", .label "top"])).offset < 2 ^ 63 := by decide
    rcases resolution_exact longer with ⟨_, _, rebinds, _⟩
    apply (rebinds "top").mpr
    exact ⟨crossing ++ [.branch .call "nowhere"], [], rfl, by decide, by decide⟩

end StackMachine.Assembly
