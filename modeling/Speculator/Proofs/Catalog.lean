import Speculator.Proofs.Fragment
import Speculator.Proofs.PureCalls

/-!
# The functions of the standard catalog

What the calls at compile time can give.  On the arguments that a contract accepts, its condition is decided and the
function only raises exceptions that the contract tolerates (`Contract.Keeps`), so that no function reads an argument
that is not there (`Contract.Safe`).

The exceptions of a function are put together from those of its parts (`OnlyRaises`).
-/

namespace Speculator

variable {faults : List Fault} {c : Contract} {limits : Limits} {args : List Value} {v : Value}

attribute [local simp] Value.typeName ArgType.accepts

open List Numeric

/-! ### Exceptions of a computation -/

def OnlyRaises {α : Type} (r : Except Fault α) (faults : List Fault) : Prop :=
  ∀ fault, r = .error fault → fault ∈ faults

namespace OnlyRaises

variable {α β : Type} {r : Except Fault α} {as : List α} {f : α → Except Fault β}

@[simp] theorem ok (a : α) : OnlyRaises (.ok a) faults := fun _ h => by cases h

@[simp] theorem error {fault} : OnlyRaises (.error fault : Except Fault α) faults ↔ fault ∈ faults :=
  ⟨fun h => h fault rfl, fun h _ hf => by cases hf; exact h⟩

theorem mono {more} (h : OnlyRaises r faults) (hmore : faults ⊆ more) : OnlyRaises r more :=
  fun fault hf => hmore (h fault hf)

@[simp] theorem map_iff {f : α → β} : OnlyRaises (r.map f) faults ↔ OnlyRaises r faults := by
  cases r <;> simp [Except.map]

theorem map (f : α → β) (h : OnlyRaises r faults) : OnlyRaises (r.map f) faults := map_iff.mpr h

theorem bind (h : OnlyRaises r faults)
    (hf : ∀ a, r = .ok a → OnlyRaises (f a) faults) : OnlyRaises (r >>= f) faults := by
  cases r with
  | ok a => exact hf a rfl
  | error fault => exact error.mpr (h fault rfl)

theorem mapM (h : ∀ a ∈ as, OnlyRaises (f a) faults) : OnlyRaises (as.mapM f) faults := by
  induction as with
  | nil => exact .ok _
  | cons a as ih =>
    rw [mapM_cons]
    exact (h a (by simp)).bind fun b _ => (ih fun a' ha' => h a' (by simp [ha'])).bind fun bs _ => .ok _

theorem foldlM {f : β → α → Except Fault β} (inv : β → Prop) {b : β} (hb : inv b)
    (h : ∀ b a, inv b → a ∈ as → OnlyRaises (f b a) faults ∧ ∀ b', f b a = .ok b' → inv b') :
    OnlyRaises (as.foldlM f b) faults := by
  induction as generalizing b with
  | nil => exact .ok _
  | cons a as ih =>
    rw [foldlM_cons]
    obtain ⟨hraises, hinv⟩ := h b a hb (by simp)
    exact hraises.bind fun b' hb' => ih (hinv b' hb') fun b'' a' hb'' ha' => h b'' a' hb'' (by simp [ha'])

end OnlyRaises

@[simp] theorem ok_bind {α β : Type} (a : α) (f : α → Except Fault β) : (Except.ok a >>= f) = f a := rfl

/-! ### Contracts -/

@[simp] theorem argument_zero (v : Value) (args : List Value) : argument (v :: args) 0 = .ok v := rfl

@[simp] theorem argument_one (v w : Value) (args : List Value) : argument (v :: w :: args) 1 = .ok w := rfl

/-- On accepted arguments the further condition is decided, and where it holds only tolerated exceptions are
raised. -/
def Contract.Keeps (c : Contract) (limits : Limits) (receiver : Option Value) (args : List Value) : Prop :=
  c.takes args.length = true → c.acceptsFrom 0 args = true →
    ∃ holds, c.holds limits (receiver.toList ++ args) = .ok holds ∧
      (holds = true → OnlyRaises (c.call (receiver.toList ++ args)) c.tolerated)

def Contract.applies (c : Contract) (limits : Limits) (receiver : Option Value) (args : List Value) : Bool :=
  c.takes args.length && c.acceptsFrom 0 args && (c.holds limits (receiver.toList ++ args)).toOption.getD false

/-- Evaluating the call cannot fail: it gives the value of the function where the contract applies and there is one,
and nothing otherwise.  No missing argument is read. -/
structure Contract.Safe (c : Contract) (limits : Limits) (receiver : Option Value) (args : List Value) : Prop where
  evaluate : c.evaluate limits receiver args =
    .ok (if c.applies limits receiver args then (c.call (receiver.toList ++ args)).toOption else none)
  holds : c.takes args.length = true → c.acceptsFrom 0 args = true →
    c.holds limits (receiver.toList ++ args) ≠ .error .missingArgument
  call : c.applies limits receiver args = true → c.call (receiver.toList ++ args) ≠ .error .missingArgument

namespace Contract.Keeps

variable {receiver : Option Value}

theorem onlyRaises (h : c.Keeps limits receiver args) (happlies : c.applies limits receiver args = true) :
    OnlyRaises (c.call (receiver.toList ++ args)) c.tolerated := by
  unfold applies at happlies
  rw [Bool.and_eq_true, Bool.and_eq_true] at happlies
  obtain ⟨⟨htakes, haccepts⟩, hholds⟩ := happlies
  obtain ⟨holds, hdecided, hraises⟩ := h htakes haccepts
  rw [hdecided] at hholds
  exact hraises hholds

theorem evaluate_eq (h : c.Keeps limits receiver args) : c.evaluate limits receiver args =
    .ok (if c.applies limits receiver args then (c.call (receiver.toList ++ args)).toOption else none) := by
  unfold Contract.evaluate
  extract_lets all
  by_cases hargs : c.takes args.length = true ∧ c.acceptsFrom 0 args = true
  · obtain ⟨holds, hdecided, hraises⟩ := h hargs.1 hargs.2
    have happlies : c.applies limits receiver args = holds := by
      simp [applies, hargs.1, hargs.2, hdecided, Except.toOption]
    rw [hargs.1, hargs.2, happlies, hdecided]
    cases holds with
    | false => rfl
    | true =>
      simp only [Bool.not_true, Bool.or_self, Bool.false_eq_true, if_false, if_true]
      cases hcall : c.call all with
      | ok v => rfl
      | error fault => exact if_pos (contains_iff_mem.mpr (hraises rfl fault hcall))
  · have hrefused : (!c.takes args.length || !c.acceptsFrom 0 args) = true := by
      rw [not_and_or] at hargs
      simpa using hargs
    have happlies : c.applies limits receiver args = false := by
      unfold applies
      rw [Bool.and_eq_false_iff, ← Bool.not_eq_true, Bool.and_eq_true]
      exact .inl hargs
    rw [if_pos hrefused, happlies]
    rfl

theorem safe (h : c.Keeps limits receiver args) (hmissing : .missingArgument ∉ c.tolerated) :
    c.Safe limits receiver args := by
  refine ⟨h.evaluate_eq, fun htakes haccepts herror => ?_, fun happlies herror => ?_⟩
  · obtain ⟨holds, hdecided, _⟩ := h htakes haccepts
    rw [hdecided] at herror
    cases herror
  · exact hmissing (h.onlyRaises happlies _ herror)

end Contract.Keeps

theorem Contract.exists_of_takes_one {args : List Value} (hmin : c.minArgs = 1)
    (hmax : c.maxArgs = some 1) (h : c.takes args.length = true) : ∃ v, args = [v] := by
  simp only [takes, hmin, hmax, Option.all_some, Bool.and_eq_true, decide_eq_true_eq] at h
  obtain ⟨v, hv⟩ := length_eq_one_iff.mp (show args.length = 1 by omega)
  exact ⟨v, hv⟩

namespace Builtin

variable {w : Value} {items : List Value}

theorem int_of_integer (h : integer.accepts v = true) : ∃ n, v.asInt? = some n := by
  cases v with
  | int n => exact ⟨n, rfl⟩
  | bool b => exact ⟨b.toInt, rfl⟩
  | _ => simp [integer] at h

theorem items_of_iterable (h : iterable.accepts v = true) :
    (∃ items, v.items? true = some items) ∧ ∃ n, v.length? = some n := by
  cases v with
  | str | bytes | tuple | list | dict | frozenSet | set => exact ⟨⟨_, rfl⟩, _, rfl⟩
  | _ => simp [iterable] at h

/-! ### Parts of functions -/

theorem raises_intOf : OnlyRaises (intOf v) [.typeError] := by
  unfold intOf
  split <;> simp

theorem raises_intOf_of_some {n : Int} (h : v.asInt? = some n) : OnlyRaises (intOf v) faults := by
  simp [intOf, h]

theorem raises_itemsOf : OnlyRaises (itemsOf v) [.typeError] := by
  unfold itemsOf
  split <;> simp

theorem raises_itemsOf_of_iterable (h : iterable.accepts v = true) : OnlyRaises (itemsOf v) faults := by
  obtain ⟨⟨items, hitems⟩, _⟩ := items_of_iterable h
  simp [itemsOf, hitems]

theorem raises_floatOfInt (n : Int) : OnlyRaises (Number.floatOfInt n) [.overflow] := by
  unfold Number.floatOfInt
  extract_lets x
  split <;> simp

theorem raises_collectSet (vs : List Value) : OnlyRaises (Value.collectSet vs) [.typeError] := by
  refine .foldlM (fun _ => True) trivial fun items v _ _ => ⟨?_, fun _ _ => trivial⟩
  split <;> simp

theorem raises_collectDict (ps : List (Value × Value)) : OnlyRaises (Value.collectDict ps) [.typeError] := by
  refine .foldlM (fun _ => True) trivial fun items v _ _ => ⟨?_, fun _ _ => trivial⟩
  split <;> simp

/-! ### Operators -/

theorem raises_power (x y : Float) : OnlyRaises (Number.power x y) [.valueError, .zeroDivision, .overflow] := by
  unfold Number.power
  dsimp only
  split_ifs <;> simp

variable (op : BinaryOp)

def arithmetic : List Fault := [.typeError, .valueError, .zeroDivision, .overflow]

@[simp] theorem mem_arithmetic {fault} : fault ∈ arithmetic ↔
    fault = .typeError ∨ fault = .valueError ∨ fault = .zeroDivision ∨ fault = .overflow := by
  simp [arithmetic]

theorem raises_binaryInts (a b : Int) : OnlyRaises (binaryInts op a b) arithmetic := by
  have hpower : ∀ x y, OnlyRaises (Number.power x y) arithmetic := fun x y => (raises_power x y).mono (by simp)
  unfold binaryInts
  cases op with
  | add | sub | mult | bitAnd | bitOr | bitXor => exact .ok _
  | div =>
    refine .map _ ?_
    unfold Number.divideInts
    split_ifs
    · simp
    · split <;> simp
  | floorDiv | mod =>
    dsimp only
    split_ifs <;> simp
  | pow =>
    dsimp only
    unfold powInts
    split_ifs
    · simp
    · split <;> simp [hpower]
    all_goals simp
  | lShift =>
    dsimp only
    unfold shiftLeft
    split_ifs <;> simp
  | rShift =>
    dsimp only
    unfold shiftRight
    split_ifs <;> simp
  | matMult => simp

theorem raises_binaryFloats (x y : Float) : OnlyRaises (binaryFloats op x y) arithmetic := by
  unfold binaryFloats
  cases op with
  | add | sub | mult | div | floorDiv | mod => exact .ok _
  | pow => exact (raises_power x y).mono (by simp)
  | _ => simp

theorem raises_binaryComplex (a b : Number.ComplexFloat) : OnlyRaises (binaryComplex op a b) arithmetic := by
  unfold binaryComplex
  cases op with
  | add | sub | mult => exact .ok _
  | div =>
    dsimp only
    unfold Number.ComplexFloat.div
    split_ifs <;> simp
  | _ => simp

theorem raises_numeric (a b : Numeric) : OnlyRaises (binary op a b) arithmetic := by
  unfold binary
  split
  · exact raises_binaryInts op _ _
  split
  · split
    · exact (raises_binaryComplex op _ _).map _
    · simp
  · split
    · split
      · simp
      · exact (raises_binaryFloats op _ _).map _
    · simp

theorem raises_binarySequence : OnlyRaises (Value.binarySequence op v w) arithmetic := by
  have hrepeat : ∀ sequence count, OnlyRaises (Value.repeatSequence sequence count) arithmetic := by
    intro sequence count
    unfold Value.repeatSequence
    split_ifs
    · simp
    · split <;> simp
  unfold Value.binarySequence
  split
  case h_5 => split <;> simp [hrepeat]
  all_goals simp

theorem raises_binary : OnlyRaises (Value.binary op v w) arithmetic := by
  unfold Value.binary
  extract_lets bools
  split
  · exact .ok _
  · exact (raises_numeric op _ _).map _
  · exact raises_binarySequence op

theorem raises_divide {op} (hop : op = .floorDiv ∨ op = .mod) (hv : real.accepts v = true)
    (hw : real.accepts w = true) (htruthy : w.truthy = true) : OnlyRaises (Value.binary op v w) [.overflow] := by
  have hnumeric : ∀ a b : Numeric, a.isComplex = false → b.isComplex = false → b.isZero = false →
      OnlyRaises (binary op a b) [.overflow] := by
    intro a b ha hb hzero
    unfold binary
    split
    · rename_i n
      have hn : n ≠ 0 := by simpa [isZero] using hzero
      rcases hop with rfl | rfl <;> simp [binaryInts, if_neg hn]
    · rw [ha, hb, hzero]
      simp only [Bool.or_self, Bool.false_eq_true, ↓reduceIte, Bool.and_false]
      split
      · rcases hop with rfl | rfl <;> simp [binaryFloats]
      · simp
  have hreal : ∀ u : Value, real.accepts u = true →
      ∃ a, u.asNumeric? = some a ∧ a.isComplex = false ∧ (u.truthy = true → a.isZero = false) := by
    intro u hu
    cases u with
    | float x => exact ⟨.float x, rfl, rfl, fun h => by rw [Value.truthy, bne, Bool.not_eq_true'] at h; exact h⟩
    | int n => exact ⟨.int n, rfl, rfl, fun h => by simpa [Value.truthy, isZero] using h⟩
    | bool b => exact ⟨.int b.toInt, rfl, rfl, fun h => by simp_all [Value.truthy, isZero]⟩
    | _ => simp [real] at hu
  obtain ⟨a, ha, hac, _⟩ := hreal v hv
  obtain ⟨b, hb, hbc, hzero⟩ := hreal w hw
  unfold Value.binary
  extract_lets bools
  rw [ha, hb]
  split
  · exact .ok _
  · rename_i hsome1 hsome2
    cases hsome1
    cases hsome2
    exact (hnumeric a b hac hbc (hzero htruthy)).map _
  · rename_i hsome hnone
    cases hbools : bools with
    | some value => exact (hsome value hbools).elim
    | none => exact (hnone a b hbools rfl rfl).elim

theorem raises_add (hv : isInexact v = false) (hw : isInexact w = false) :
    OnlyRaises (Value.binary .add v w) [.typeError] ∧ ∀ r, Value.binary .add v w = .ok r → isInexact r = false := by
  have hnumeric : ∀ u : Value, isInexact u = false → ∀ a, u.asNumeric? = some a → ∃ n, a = .int n := by
    intro u hu a ha
    cases u <;> cases ha
    · exact ⟨_, rfl⟩
    · exact ⟨_, rfl⟩
    · cases hu
    · cases hu
  unfold Value.binary
  extract_lets bools
  split
  · exact ⟨.ok _, fun r hr => by cases hr; rfl⟩
  · rename_i a b _ ha hb
    obtain ⟨m, rfl⟩ := hnumeric v hv a ha
    obtain ⟨n, rfl⟩ := hnumeric w hw b hb
    exact ⟨.ok _, fun r hr => by cases hr; rfl⟩
  · unfold Value.binarySequence
    split
    case h_5 => exact absurd ‹BinaryOp.add = BinaryOp.mult› (by decide)
    all_goals simp [isInexact]

theorem raises_orderNumbers (op : CompareOp) : OnlyRaises (Value.orderNumbers op v w) [.typeError] := by
  unfold Value.orderNumbers
  split <;> simp

theorem raises_orderSets (op : CompareOp) (a b : List Value) : OnlyRaises (Value.orderSets op a b) [.typeError] := by
  unfold Value.orderSets
  split <;> simp

theorem raises_order (op : CompareOp) (v w : Value) : OnlyRaises (Value.order op v w) [.typeError] := by
  refine Value.order.induct (fun v w => OnlyRaises (Value.order op v w) [.typeError])
    (fun as bs => OnlyRaises (Value.orderItems op as bs) [.typeError]) ?strs ?bytes ?tuples ?lists ?frozen ?frozenSet
    ?setFrozen ?sets ?numbers ?equal ?differ ?ends ?shorter ?longer v w
  case strs | bytes =>
    intro a b
    rw [Value.order]
    exact .ok _
  case tuples | lists =>
    intro a b ih
    rw [Value.order]
    exact ih
  case frozen | frozenSet | setFrozen | sets =>
    intro a b
    rw [Value.order]
    exact raises_orderSets op a b
  case numbers =>
    intro v w _ _ _ _ _ _ _ _
    rw [Value.order]
    · exact raises_orderNumbers op
    all_goals assumption
  case equal =>
    intro a as b bs heq ih
    rw [Value.orderItems, if_pos heq]
    exact ih
  case differ =>
    intro a as b bs hne ih
    rw [Value.orderItems, if_neg hne]
    exact ih
  case ends => exact .ok _
  case shorter | longer =>
    intro a as
    exact .ok _

/-! ### Functions on the arguments that they accept -/

theorem raises_abs (h : number.accepts v = true) : OnlyRaises (abs v) [.overflow] := by
  unfold abs
  split
  · exact .ok _
  · extract_lets r
    split <;> simp
  · rename_i hfloat hcomplex
    cases v with
    | int | bool => exact (raises_intOf_of_some rfl).map _
    | float x => exact (hfloat x rfl).elim
    | complex c => exact (hcomplex c rfl).elim
    | _ => simp [number] at h

theorem raises_radix {base : Nat} {mark : String} (h : integer.accepts v = true) :
    OnlyRaises (radix base mark v) faults := by
  obtain ⟨n, hn⟩ := int_of_integer h
  exact (raises_intOf_of_some hn).map _

theorem exists_mapM_of_isSome {α β : Type} {f : α → Option β} {as : List α} (h : ∀ a ∈ as, (f a).isSome = true) :
    ∃ bs, as.mapM f = some bs := by
  induction as with
  | nil => exact ⟨[], rfl⟩
  | cons a as ih =>
    obtain ⟨b, hb⟩ := Option.isSome_iff_exists.mp (h a (by simp))
    obtain ⟨bs, hbs⟩ := ih fun a' ha' => h a' (by simp [ha'])
    rw [mapM_cons, hb, hbs]
    exact ⟨_, rfl⟩

theorem raises_bytes (h : (ArgType.oneOf ["bytes", "tuple"]).accepts v = true) (hbytes : holdsBytes v = true) :
    OnlyRaises (bytes v) faults := by
  cases v with
  | bytes b => exact .ok _
  | tuple items =>
    obtain ⟨b, hb⟩ := exists_mapM_of_isSome (all_eq_true.mp hbytes)
    simp [bytes, hb]
  | _ => simp at h

theorem raises_complexOf : OnlyRaises (complexOf v) [.valueError, .typeError, .overflow] := by
  unfold complexOf
  split
  · exact .ok _
  · exact .ok _
  · refine .map _ (.bind (raises_intOf.mono (by simp)) fun n _ => ?_)
    exact (raises_floatOfInt n).mono (by simp)

theorem raises_complex {rest} : OnlyRaises (complex (v :: rest)) [.valueError, .typeError, .overflow] := by
  refine raises_complexOf.bind fun real _ => ?_
  split
  · exact .ok _
  · exact raises_complexOf.bind fun _ _ => .ok _

theorem raises_dict : OnlyRaises (dict args) [.typeError, .valueError] := by
  unfold dict
  split
  · exact .ok _
  · exact .ok _
  · refine (raises_itemsOf.mono (by simp)).bind fun items _ => ?_
    refine .bind (.mapM fun item _ => ?_) fun pairs _ => ((raises_collectDict pairs).mono (by simp)).map _
    unfold pairOf
    split <;> simp

theorem raises_divmod (hv : real.accepts v = true) (hw : real.accepts w = true) (htruthy : w.truthy = true) :
    OnlyRaises (divmod [v, w]) [.overflow] := by
  simp only [divmod, argument_zero, argument_one, ok_bind]
  split
  · rename_i a b _ hb
    have hne : b ≠ 0 := by
      cases w <;> cases hb
      · simp_all [Value.truthy]
      · simpa [Value.truthy] using htruthy
    rw [if_neg hne]
    exact .ok _
  · exact (raises_divide (.inl rfl) hv hw htruthy).bind fun _ _ =>
      (raises_divide (.inr rfl) hv hw htruthy).bind fun _ _ => .ok _

theorem raises_textOf (h : strings.accepts v = true) : OnlyRaises (textOf v) [.valueError] := by
  unfold textOf
  split
  · exact .ok _
  · split <;> simp
  · rename_i hstr hbytes
    cases v with
    | str s => exact (hstr s rfl).elim
    | bytes b => exact (hbytes b rfl).elim
    | _ => simp [strings] at h

theorem raises_readFloat (text : String) : OnlyRaises (Number.readFloat text) [.valueError] := by
  unfold Number.readFloat
  split
  · simp
  · dsimp only
    split <;> simp

theorem raises_readInt (text : String) : OnlyRaises (Number.readInt text) [.valueError] := by
  unfold Number.readInt
  split
  · simp
  · dsimp only
    split <;> simp

theorem raises_float (h : numeral.accepts v = true) : OnlyRaises (float v) [.valueError, .overflow] := by
  cases v with
  | float x => exact .ok _
  | str | bytes =>
    refine .map _ (.bind ((raises_textOf rfl).mono (by simp)) fun text _ => ?_)
    exact (raises_readFloat text).mono (by simp)
  | int | bool =>
    refine .map _ (.bind (raises_intOf_of_some rfl) fun n _ => ?_)
    exact (raises_floatOfInt n).mono (by simp)
  | _ => simp [numeral] at h

theorem raises_int (h : numeral.accepts v = true) : OnlyRaises (int v) [.valueError, .overflow] := by
  cases v with
  | float x =>
    refine .map _ ?_
    unfold Number.truncate
    split_ifs <;> simp
  | str | bytes =>
    refine .map _ (.bind ((raises_textOf rfl).mono (by simp)) fun text _ => ?_)
    exact (raises_readInt text).mono (by simp)
  | int | bool => exact .ok _
  | _ => simp [numeral] at h

theorem raises_len (h : iterable.accepts v = true) : OnlyRaises (len v) faults := by
  obtain ⟨_, n, hn⟩ := items_of_iterable h
  simp [len, hn]

variable {op : CompareOp} {rest : List Value} {build : List Value → Except Fault Value}

theorem raises_best (hop : op = .gt ∨ op = .lt) (v : Value) (rest : List Value) :
    OnlyRaises (best op v rest) [.typeError] := by
  induction rest generalizing v with
  | nil => exact .ok _
  | cons w rest ih =>
    have hcompare : OnlyRaises (Value.compare op w v) [.typeError] := by
      rcases hop with rfl | rfl <;> exact raises_order _ w v
    unfold best
    split
    · exact ih _
    · rename_i fault hfault
      exact OnlyRaises.error.mpr (hcompare fault hfault)

theorem raises_extremum (hop : op = .gt ∨ op = .lt) :
    OnlyRaises (extremum op args) [.typeError, .valueError] := by
  have hbest : ∀ v rest, OnlyRaises (best op v rest) [.typeError, .valueError] := fun v rest =>
    (raises_best hop v rest).mono (by simp)
  unfold extremum
  split
  · refine (raises_itemsOf.mono (by simp)).bind fun candidates _ => ?_
    cases candidates with
    | nil => simp
    | cons v rest => exact hbest v rest
  · cases args with
    | nil => simp
    | cons v rest => exact hbest v rest

theorem raises_ord (h : strings.accepts v = true) (hlength : v.length? = some 1) : OnlyRaises (ord v) faults := by
  cases v with
  | str s =>
    obtain ⟨c, hc⟩ := length_eq_one_iff.mp (show s.toList.length = 1 by
      rw [String.length_toList]
      simpa [Value.length?] using hlength)
    simp [ord, hc]
  | bytes b =>
    obtain ⟨byte, rfl⟩ := length_eq_one_iff.mp (show b.length = 1 by simpa [Value.length?] using hlength)
    exact .ok _
  | _ => simp [strings] at h

theorem raises_pow : OnlyRaises (pow args) [.valueError, .typeError, .overflow, .zeroDivision] := by
  unfold pow
  split
  · exact (raises_binary .pow).mono (by simp [arithmetic])
  · split
    · split_ifs <;> simp
    · simp
  · simp

theorem raises_round_one (h : real.accepts v = true) : OnlyRaises (round [v]) [.valueError, .overflow] := by
  cases v with
  | float x =>
    simp only [round, argument_zero, ok_bind, getElem?_cons_succ, getElem?_nil]
    refine .map _ ?_
    unfold Number.roundToInt
    split_ifs <;> simp
  | int | bool => exact .ok _
  | _ => simp [real] at h

theorem raises_round_places (hv : real.accepts v = true) (hw : integer.accepts w = true) :
    OnlyRaises (round [v, w]) [.valueError, .overflow] := by
  obtain ⟨n, hn⟩ := int_of_integer hw
  cases v with
  | float x =>
    simp only [round, argument_zero, ok_bind, getElem?_cons_succ, getElem?_cons_zero, hn]
    exact .ok _
  | int | bool => exact (raises_intOf_of_some hn).bind fun _ _ => .ok _
  | _ => simp [real] at hv

theorem roundsToPlaces_cons (v : Value) (rest : List Value) : ∃ holds, roundsToPlaces (v :: rest) = .ok holds := by
  rw [roundsToPlaces, argument_zero, ok_bind]
  split
  · exact ⟨_, rfl⟩
  · exact ⟨true, rfl⟩

theorem sumsExactly_cons (v : Value) (rest : List Value) :
    sumsExactly (v :: rest) = .ok ((v.items? true).any fun items =>
      ordered (v :: rest) && (items ++ rest[0]?.toList).all fun x => !isInexact x) := by
  rw [sumsExactly, argument_zero, ok_bind, getElem?_cons_succ]
  cases v.items? true <;> rfl

theorem raises_sum (h : sumsExactly (v :: rest) = .ok true) :
    OnlyRaises (sum (v :: rest)) [.typeError] := by
  rw [sumsExactly_cons, Except.ok.injEq, Option.any_eq_true] at h
  obtain ⟨items, hitems, hterms⟩ := h
  rw [Bool.and_eq_true, all_eq_true] at hterms
  have hexact : ∀ w ∈ items ++ rest[0]?.toList, isInexact w = false := by simpa using hterms.2
  have hstart : isInexact ((v :: rest)[1]?.getD (.int 0)) = false := by
    cases rest with
    | nil => rfl
    | cons w rest => exact hexact w (by simp)
  unfold sum
  split
  · simp
  · simp
  · rw [argument_zero, ok_bind, itemsOf, hitems]
    refine OnlyRaises.bind (.ok items) fun items' hitems' => ?_
    cases hitems'
    refine .foldlM (fun w => isInexact w = false) hstart fun total w htotal hw => ?_
    exact raises_add htotal (hexact w (by simp [hw]))

/-! ### The contracts of the builtins -/

section Contracts

variable {name : String} {type type' : ArgType} {check : Option (Limits → List Value → Except Fault Bool)}
  {tolerated : List Fault} {call : List Value → Except Fault Value}

theorem keeps_one (h : ∀ v, type.accepts v = true →
      ∃ holds, (⟨name, 1, some 1, [type], check, tolerated, call⟩ : Contract).holds limits [v] = .ok holds ∧
        (holds = true → OnlyRaises (call [v]) tolerated)) :
    (⟨name, 1, some 1, [type], check, tolerated, call⟩ : Contract).Keeps limits none args := by
  intro htakes haccepts
  obtain ⟨v, rfl⟩ := Contract.exists_of_takes_one rfl rfl htakes
  simp only [Contract.acceptsFrom, Bool.and_true] at haccepts
  exact h v haccepts

theorem keeps_two
    (hone : ∀ v, type.accepts v = true →
      ∃ holds, (⟨name, 1, some 2, [type, type'], check, tolerated, call⟩ : Contract).holds limits [v] = .ok holds ∧
        (holds = true → OnlyRaises (call [v]) tolerated))
    (htwo : ∀ v w, type.accepts v = true → type'.accepts w = true →
      ∃ holds, (⟨name, 1, some 2, [type, type'], check, tolerated, call⟩ : Contract).holds limits [v, w] = .ok holds ∧
        (holds = true → OnlyRaises (call [v, w]) tolerated)) :
    (⟨name, 1, some 2, [type, type'], check, tolerated, call⟩ : Contract).Keeps limits none args := by
  intro htakes haccepts
  simp only [Contract.takes, Option.all_some, Bool.and_eq_true, decide_eq_true_eq] at htakes
  match args, htakes, haccepts with
  | [v], _, haccepts =>
    simp only [Contract.acceptsFrom, Bool.and_true] at haccepts
    exact hone v haccepts
  | [v, w], _, haccepts =>
    simp only [Contract.acceptsFrom, Bool.and_true, Bool.and_eq_true] at haccepts
    exact htwo v w haccepts.1 haccepts.2
  | [], htakes, _ => simp at htakes
  | _ :: _ :: _ :: _, htakes, _ =>
    simp only [length_cons] at htakes
    omega

theorem keeps_any (hholds : ∃ holds, c.holds limits args = .ok holds)
    (h : OnlyRaises (c.call args) c.tolerated) : c.Keeps limits none args := by
  obtain ⟨holds, hholds⟩ := hholds
  exact fun _ _ => ⟨holds, hholds, fun _ => h⟩

theorem raises_collect
    (h : ∀ items, OnlyRaises (build items) [.typeError]) : OnlyRaises (collect build args) [.typeError] := by
  unfold collect
  split
  · exact h []
  · exact raises_itemsOf.bind fun items _ => h items

end Contracts

theorem keeps_contracts : ∀ c ∈ contracts, ∀ limits args, c.Keeps limits none args := by
  -- one case for each contract, in the order of the list
  intro c hc limits args
  simp only [contracts, mem_cons, not_mem_nil, or_false] at hc
  rcases hc with rfl | rfl | rfl | rfl | rfl | rfl | rfl | rfl | rfl | rfl | rfl | rfl | rfl |
    rfl | rfl | rfl | rfl | rfl | rfl | rfl | rfl | rfl | rfl | rfl | rfl | rfl
  · exact keeps_one fun v hv => ⟨_, rfl, fun _ => raises_abs hv⟩
  · exact keeps_one fun v _ => ⟨_, rfl, fun _ => .ok _⟩
  · exact keeps_one fun v hv => ⟨_, rfl, fun _ => raises_radix hv⟩
  · exact keeps_one fun v _ => ⟨_, rfl, fun _ => .ok _⟩
  · exact keeps_one fun v hv => ⟨_, rfl, fun hbytes => raises_bytes hv hbytes⟩
  · refine keeps_one fun v _ => ⟨_, rfl, fun hchar => ?_⟩
    obtain ⟨c, hc⟩ := Option.isSome_iff_exists.mp hchar
    change OnlyRaises (chr v) []
    simp [chr, hc]
  · exact keeps_two (fun v _ => ⟨_, rfl, fun _ => raises_complex⟩) fun v w _ _ => ⟨_, rfl, fun _ => raises_complex⟩
  · exact keeps_any ⟨_, rfl⟩ raises_dict
  · intro htakes haccepts
    simp only [Contract.takes, Option.all_some, Bool.and_eq_true, decide_eq_true_eq] at htakes
    obtain ⟨v, w, rfl⟩ := length_eq_two.mp (show args.length = 2 by omega)
    simp only [Contract.acceptsFrom, Bool.and_true, Bool.and_eq_true] at haccepts
    exact ⟨_, rfl, fun htruthy => raises_divmod haccepts.1 haccepts.2 htruthy⟩
  · exact keeps_one fun v hv => ⟨_, rfl, fun _ => raises_float hv⟩
  · exact keeps_any ⟨_, rfl⟩ (raises_collect fun items => (raises_collectSet items).map _)
  · exact keeps_one fun v hv => ⟨_, rfl, fun _ => raises_radix hv⟩
  · exact keeps_one fun v hv => ⟨_, rfl, fun _ => raises_int hv⟩
  · exact keeps_one fun v hv => ⟨_, rfl, fun _ => raises_len hv⟩
  · exact keeps_one fun v hv => ⟨_, rfl, fun _ => (raises_itemsOf_of_iterable hv).bind fun _ _ => .ok _⟩
  · exact keeps_any ⟨_, rfl⟩ (raises_extremum (.inl rfl))
  · exact keeps_any ⟨_, rfl⟩ (raises_extremum (.inr rfl))
  · exact keeps_one fun v hv => ⟨_, rfl, fun _ => raises_radix hv⟩
  · exact keeps_one fun v hv => ⟨_, rfl, fun hlength => raises_ord hv (beq_iff_eq.mp hlength)⟩
  · intro htakes _
    simp only [Contract.takes, Bool.and_eq_true, decide_eq_true_eq] at htakes
    obtain ⟨base, rest, rfl⟩ := exists_cons_of_length_pos (show 0 < args.length by omega)
    rw [length_cons] at htakes
    obtain ⟨exponent, rest, rfl⟩ := exists_cons_of_length_pos (show 0 < rest.length by omega)
    exact ⟨_, rfl, fun _ => raises_pow⟩
  · exact keeps_one fun v _ => ⟨_, rfl, fun _ => .ok _⟩
  · refine keeps_two (fun v hv => ?_) fun v w hv hw => ?_
    · obtain ⟨holds, hholds⟩ := roundsToPlaces_cons v []
      exact ⟨holds, hholds, fun _ => raises_round_one hv⟩
    · obtain ⟨holds, hholds⟩ := roundsToPlaces_cons v [w]
      exact ⟨holds, hholds, fun _ => raises_round_places hv hw⟩
  · exact keeps_any ⟨_, rfl⟩ (raises_collect fun items => (raises_collectSet items).map _)
  · exact keeps_one fun v _ => ⟨_, rfl, fun _ => .ok _⟩
  · refine keeps_two (fun v _ => ⟨_, sumsExactly_cons v [], fun h => ?_⟩)
      fun v w _ _ => ⟨_, sumsExactly_cons v [w], fun h => ?_⟩
    · exact raises_sum (by rw [sumsExactly_cons, h])
    · exact raises_sum (by rw [sumsExactly_cons, h])
  · exact keeps_one fun v hv => ⟨_, rfl, fun _ => (raises_itemsOf_of_iterable hv).bind fun _ _ => .ok _⟩

/-! ### Values of builtins -/

def Builds (r : Except Fault Value) : Prop := ∀ v, r = .ok v → v.Regular true

namespace Builds

variable {α : Type} {r : Except Fault α}

@[simp] theorem ok_iff : Builds (.ok v) ↔ v.Regular true :=
  ⟨fun h => h v rfl, fun h _ hv => by cases hv; exact h⟩

theorem ok (h : v.Regular true) : Builds (.ok v) := ok_iff.mpr h

@[simp] theorem error (fault : Fault) : Builds (.error fault) := fun _ hv => by cases hv

@[simp] theorem map_iff {f : α → Value} : Builds (r.map f) ↔ ∀ a, r = .ok a → (f a).Regular true := by
  cases r <;> simp [Except.map]

theorem map {f : α → Value} (h : ∀ a, r = .ok a → (f a).Regular true) : Builds (r.map f) := map_iff.mpr h

theorem bind {f : α → Except Fault Value} (h : ∀ a, r = .ok a → Builds (f a)) : Builds (r >>= f) := by
  cases r with
  | ok a => exact h a rfl
  | error fault => exact .error fault

end Builds

attribute [local simp] Value.Regular

theorem regular_items {unordered : Bool} (hv : v.Regular true) (h : v.items? unordered = some items) :
    ∀ w ∈ items, w.Regular true := by
  cases v with
  | str | bytes =>
    cases h
    intro w hw
    obtain ⟨_, _, rfl⟩ := mem_map.mp hw
    simp
  | tuple | list =>
    cases h
    rw [Value.Regular] at hv
    exact Value.allRegular_iff.mp hv
  | dict pairs =>
    cases h
    rw [Value.Regular] at hv
    intro w hw
    obtain ⟨p, hp, rfl⟩ := mem_map.mp hw
    exact (Value.pairsRegular_iff.mp hv.2.1 p hp).1
  | frozenSet items =>
    rw [Value.Regular] at hv
    simp only [Value.items?] at h
    split at h
    · cases h
      exact fun w hw => Value.regular_of_isConstant true w (Value.allConstant_iff.mp hv w hw)
    · cases h
  | set items =>
    rw [Value.Regular] at hv
    simp only [Value.items?] at h
    split at h
    · cases h
      exact Value.allRegular_iff.mp hv.2.1
    · cases h
  | _ => cases h

theorem regular_itemsOf (hv : v.Regular true) (h : itemsOf v = .ok items) : ∀ w ∈ items, w.Regular true := by
  unfold itemsOf at h
  split at h
  · rename_i hitems
    cases h
    exact regular_items hv hitems
  · cases h

theorem builds_onFirst {f : Value → Except Fault Value} (h : ∀ v, Builds (f v)) : Builds (onFirst f args) :=
  .bind fun v _ => h v

theorem builds_collect (hargs : ∀ v ∈ args, v.Regular true)
    (h : ∀ items, (∀ w ∈ items, w.Regular true) → Builds (build items)) : Builds (collect build args) := by
  unfold collect
  split
  · exact h [] (by simp)
  · exact .bind fun items hitems => h items (regular_itemsOf (hargs _ (by simp)) hitems)

theorem builds_set (hitems : ∀ w ∈ items, w.Regular true) : Builds ((Value.collectSet items).map .set) := by
  refine .map fun collected hcollected => ?_
  obtain ⟨hdistinct, hmem⟩ := Value.collectSet_ok hcollected
  rw [Value.Regular, Value.allRegular_iff]
  exact ⟨rfl, fun w hw => hitems w (hmem w hw), hdistinct⟩

theorem builds_frozenSet (hitems : ∀ w ∈ items, w.Regular true) :
    Builds ((Value.collectSet items).map .frozenSet) := by
  refine .map fun collected hcollected => ?_
  obtain ⟨hdistinct, hmem⟩ := Value.collectSet_ok hcollected
  rw [Value.Regular, Value.allConstant_iff]
  exact fun w hw => Value.isConstant_of_isHashable true w (hitems w (hmem w hw)) (hdistinct.1 w hw)

theorem builds_dict (hargs : ∀ v ∈ args, v.Regular true) : Builds (dict args) := by
  unfold dict
  split
  · exact .ok (by simp [Value.PairsRegular, Value.distinct_nil])
  · exact .ok (hargs _ (by simp))
  · refine .bind fun items hitems => .bind fun pairs hpairs => .map fun entries hentries => ?_
    have hregular := regular_itemsOf (hargs _ (by simp)) hitems
    have hpairsRegular : Value.PairsRegular true pairs := by
      rw [Value.pairsRegular_iff]
      intro p hp
      obtain ⟨item, hitem, hpair⟩ := exists_of_forall₂ (mapM_eq_ok.mp hpairs) hp
      unfold pairOf at hpair
      split at hpair
      · rename_i key value hkey
        cases hpair
        have hparts := regular_items (hregular item hitem) hkey
        exact ⟨hparts key (by simp), hparts value (by simp)⟩
      · cases hpair
      · cases hpair
    obtain ⟨hdistinct, hregular'⟩ := Value.collectDict_ok hpairsRegular hentries
    rw [Value.Regular]
    exact ⟨rfl, hregular', hdistinct⟩

theorem builds_binary {op} (hv : v.Regular true) (hw : w.Regular true) : Builds (Value.binary op v w) :=
  fun _ h => Value.regular_binary hv hw h

theorem mem_of_argument {index : Nat} (h : argument args index = .ok v) : v ∈ args := by
  unfold argument at h
  split at h
  · rename_i hget
    cases h
    exact mem_of_getElem? hget
  · cases h

theorem builds_divmod (hargs : ∀ v ∈ args, v.Regular true) : Builds (divmod args) := by
  refine .bind fun v hv => .bind fun w hw => ?_
  have hv := hargs v (mem_of_argument hv)
  have hw := hargs w (mem_of_argument hw)
  split
  · split
    · exact .error _
    · exact .ok (by simp [Value.AllRegular])
  · refine .bind fun q hq => .bind fun r hr => .ok ?_
    rw [Value.Regular]
    exact ⟨Value.regular_binary hv hw hq, Value.regular_binary hv hw hr, trivial⟩

theorem builds_best (hv : v.Regular true) (hrest : ∀ w ∈ rest, w.Regular true) :
    Builds (best op v rest) := by
  induction rest generalizing v with
  | nil => exact .ok hv
  | cons w rest ih =>
    unfold best
    split
    · refine ih ?_ fun u hu => hrest u (by simp [hu])
      split
      · exact hrest w (by simp)
      · exact hv
    · exact .error _

theorem builds_extremum (hargs : ∀ v ∈ args, v.Regular true) : Builds (extremum op args) := by
  unfold extremum
  split
  · rename_i v
    refine .bind fun candidates h => ?_
    have hcandidates := regular_itemsOf (hargs v (by simp)) h
    cases candidates with
    | nil => exact .error _
    | cons v rest => exact builds_best (hcandidates v (by simp)) fun w hw => hcandidates w (by simp [hw])
  · cases args with
    | nil => exact .error _
    | cons v rest => exact builds_best (hargs v (by simp)) fun w hw => hargs w (by simp [hw])

theorem builds_foldlM (hv : v.Regular true) (hitems : ∀ w ∈ items, w.Regular true) :
    Builds (items.foldlM (Value.binary .add) v) := by
  induction items generalizing v with
  | nil => exact .ok hv
  | cons w items ih =>
    rw [foldlM_cons]
    refine .bind fun total htotal => ih ?_ fun u hu => hitems u (by simp [hu])
    exact Value.regular_binary hv (hitems w (by simp)) htotal

theorem builds_sum (hargs : ∀ v ∈ args, v.Regular true) : Builds (sum args) := by
  have hstart : (args[1]?.getD (Value.int 0)).Regular true := by
    cases hget : args[1]? with
    | none => simp
    | some w => exact hargs w (mem_of_getElem? hget)
  unfold sum
  split
  · exact .error _
  · exact .error _
  · refine .bind fun v hv => .bind fun items hitems => ?_
    exact builds_foldlM hstart (regular_itemsOf (hargs v (mem_of_argument hv)) hitems)

theorem builds_round : Builds (round args) := by
  refine .bind fun v _ => ?_
  split
  · simp
  · split <;> simp
  · simp
  · exact .bind fun _ _ => .bind fun _ _ => .ok (by simp)

theorem builds_pow (hargs : ∀ v ∈ args, v.Regular true) : Builds (pow args) := by
  unfold pow
  split
  · exact builds_binary (hargs _ (by simp)) (hargs _ (by simp))
  · split
    · split <;> simp
    · simp
  · simp

theorem builds_complex : Builds (complex args) := by
  refine .bind fun v _ => .bind fun real _ => ?_
  split
  · exact .ok (by simp)
  · exact .bind fun _ _ => .ok (by simp)

variable (v)

theorem builds_abs : Builds (abs v) := by
  unfold abs
  split
  · simp
  · extract_lets r
    split <;> simp
  · simp

theorem builds_bytes : Builds (bytes v) := by
  unfold bytes
  split
  · simp
  · split <;> simp
  · simp

theorem builds_chr : Builds (chr v) := by
  unfold chr
  split <;> simp

theorem builds_float : Builds (float v) := by
  unfold float
  split <;> simp

theorem builds_int : Builds (int v) := by
  unfold int
  split <;> simp

theorem builds_len : Builds (len v) := by
  unfold len
  split <;> simp

theorem builds_ord : Builds (ord v) := by
  unfold ord
  split
  · split <;> simp
  · simp
  · simp

/-- The builtins only build regular values, which have a literal or a display. -/
theorem regular_call : ∀ c ∈ contracts, ∀ args, (∀ v ∈ args, v.Regular true) → Builds (c.call args) := by
  -- one case for each contract, in the order of the list
  intro c hc args hargs
  simp only [contracts, mem_cons, not_mem_nil, or_false] at hc
  rcases hc with rfl | rfl | rfl | rfl | rfl | rfl | rfl | rfl | rfl | rfl | rfl | rfl | rfl |
    rfl | rfl | rfl | rfl | rfl | rfl | rfl | rfl | rfl | rfl | rfl | rfl | rfl
  · exact builds_onFirst builds_abs
  · exact builds_onFirst fun _ => .ok (by simp)
  · exact builds_onFirst fun _ => .map (by simp)
  · exact builds_onFirst fun _ => .ok (by simp)
  · exact builds_onFirst builds_bytes
  · exact builds_onFirst builds_chr
  · exact builds_complex
  · exact builds_dict hargs
  · exact builds_divmod hargs
  · exact builds_onFirst builds_float
  · exact builds_collect hargs fun _ h => builds_frozenSet h
  · exact builds_onFirst fun _ => .map (by simp)
  · exact builds_onFirst builds_int
  · exact builds_onFirst builds_len
  · exact builds_collect hargs fun _ h => .ok (by rw [Value.Regular, Value.allRegular_iff]; exact h)
  · exact builds_extremum hargs
  · exact builds_extremum hargs
  · exact builds_onFirst fun _ => .map (by simp)
  · exact builds_onFirst builds_ord
  · exact builds_pow hargs
  · exact builds_onFirst fun _ => .ok (by simp)
  · exact builds_round
  · exact builds_collect hargs fun _ h => builds_set h
  · exact builds_onFirst fun _ => .ok (by simp)
  · exact builds_sum hargs
  · exact builds_collect hargs fun _ h => .ok (by rw [Value.Regular, Value.allRegular_iff]; exact h)

end Builtin

namespace Method

/-! ### The contracts of the methods -/

variable {receiver : Value}

theorem str_of_typeName (h : receiver.typeName = "str") : ∃ s, receiver = .str s := by
  cases receiver with
  | str s => exact ⟨s, rfl⟩
  | _ => simp at h

theorem bytes_of_typeName (h : receiver.typeName = "bytes") : ∃ b, receiver = .bytes b := by
  cases receiver with
  | bytes b => exact ⟨b, rfl⟩
  | _ => simp at h

theorem raises_encode (h : receiver.typeName = "str") (hcodec : (codec? (receiver :: args)).isSome = true) :
    OnlyRaises (encode (receiver :: args)) [.unicodeError] := by
  obtain ⟨s, rfl⟩ := str_of_typeName h
  obtain ⟨codec, hcodec⟩ := Option.isSome_iff_exists.mp hcodec
  simp only [encode, argument_zero, ok_bind, hcodec]
  split <;> simp

theorem raises_decode (h : receiver.typeName = "bytes") (hcodec : (codec? (receiver :: args)).isSome = true) :
    OnlyRaises (decode (receiver :: args)) [.unicodeError] := by
  obtain ⟨b, rfl⟩ := bytes_of_typeName h
  obtain ⟨codec, hcodec⟩ := Option.isSome_iff_exists.mp hcodec
  simp only [decode, argument_zero, ok_bind, hcodec]
  split <;> simp

theorem raises_affix {test : List Char → List Char → Bool} (h : receiver.typeName = "str") {v}
    (haffix : (affixes? v).isSome = true) : OnlyRaises (affix test [receiver, v]) faults := by
  obtain ⟨s, rfl⟩ := str_of_typeName h
  obtain ⟨texts, htexts⟩ := Option.isSome_iff_exists.mp haffix
  simp only [affix, argument_zero, argument_one, ok_bind, htexts]
  exact .ok _

theorem raises_bitLength (args : List Value) (h : receiver.typeName = "int" ∨ receiver.typeName = "bool") :
    OnlyRaises (bitLength (receiver :: args)) faults := by
  cases receiver with
  | int | bool => exact .ok _
  | _ => simp at h

theorem raises_isInteger (h : receiver.typeName = "float") : OnlyRaises (isInteger (receiver :: args)) faults := by
  cases receiver with
  | float x => exact .ok _
  | _ => simp at h

theorem keeps_affixTest (name : String) (test : List Char → List Char → Bool) (limits : Limits)
    (h : receiver.typeName = "str") : (affixTest name test).2.Keeps limits (some receiver) args := by
  intro htakes _
  obtain ⟨v, rfl⟩ := Contract.exists_of_takes_one rfl rfl htakes
  exact ⟨_, rfl, fun haffix => raises_affix h haffix⟩

theorem keeps_contracts : ∀ m ∈ contracts, ∀ limits receiver args, receiver.typeName = m.1 →
    m.2.Keeps limits (some receiver) args := by
  intro m hm limits receiver args htype
  have hascii : ∀ name call, (∀ s, OnlyRaises (call (.str s :: args)) []) → receiver.typeName = "str" →
      (onAscii name call).2.Keeps limits (some receiver) args := by
    intro name call hcall hstr _ _
    obtain ⟨s, rfl⟩ := str_of_typeName hstr
    exact ⟨_, rfl, fun _ => hcall s⟩
  simp only [contracts, mem_cons, not_mem_nil, or_false] at hm
  rcases hm with rfl | rfl | rfl | rfl | rfl | rfl | rfl | rfl | rfl | rfl | rfl | rfl | rfl
  · exact fun _ _ => ⟨_, rfl, fun hcodec => raises_encode htype hcodec⟩
  · exact fun _ _ => ⟨_, rfl, fun hcodec => raises_decode htype hcodec⟩
  · exact hascii _ _ (fun _ => .ok _) htype
  · exact hascii _ _ (fun _ => .ok _) htype
  · exact hascii _ _ (fun _ => .ok _) htype
  · exact hascii _ _ (fun _ => .ok _) htype
  · exact hascii _ _ (fun _ => .ok _) htype
  · exact hascii _ _ (fun _ => .ok _) htype
  · exact keeps_affixTest _ _ limits htype
  · exact keeps_affixTest _ _ limits htype
  · exact fun _ _ => ⟨_, rfl, fun _ => raises_bitLength args (.inl htype)⟩
  · exact fun _ _ => ⟨_, rfl, fun _ => raises_bitLength args (.inr htype)⟩
  · exact fun _ _ => ⟨_, rfl, fun _ => raises_isInteger htype⟩

end Method

namespace Catalog

theorem mem_contracts_of_standard {name : Ident} (h : standard.builtin? name = some c) : c ∈ Builtin.contracts := by
  obtain ⟨l1, l2, hentries, _⟩ := lookup_eq_some_iff.mp h
  have hmem : (name, c) ∈ standard.builtins := by rw [hentries]; simp
  obtain ⟨_, hc, heq⟩ := mem_map.mp hmem
  cases heq
  exact hc

/-- A call of a function of the standard catalog never makes the optimizer fail. -/
theorem tolerant_standard (limits : Limits) : standard.Tolerant limits := by
  refine ⟨fun name c hc args cause hcause => ?_, fun receiver name c hc args cause hcause => ?_⟩
  · rw [(Builtin.keeps_contracts c (mem_contracts_of_standard hc) limits args).evaluate_eq] at hcause
    cases hcause
  · obtain ⟨l1, l2, hentries, _⟩ := lookup_eq_some_iff.mp hc
    have hmem : ((receiver.typeName, name), c) ∈ standard.methods := by rw [hentries]; simp
    obtain ⟨m, hm, heq⟩ := mem_map.mp hmem
    obtain ⟨⟨htype, _⟩, rfl⟩ := Prod.ext_iff.mp heq |>.imp Prod.ext_iff.mp id
    rw [(Method.keeps_contracts m hm limits receiver args htype.symm).evaluate_eq] at hcause
    cases hcause

/-- A missing argument is no exception, and no contract tolerates it. -/
theorem missingArgument_not_tolerated :
    (∀ c ∈ Builtin.contracts, .missingArgument ∉ c.tolerated) ∧
      ∀ m ∈ Method.contracts, .missingArgument ∉ m.2.tolerated := by
  decide

/-- The functions of the standard catalog are safe under all options, on all arguments and all receivers of their
types: no call fails, and none reads an argument that is not there. -/
theorem safe_standard (config : Config) :
    (∀ entry ∈ standard.builtins, ∀ args, entry.2.Safe config.limits none args) ∧
      ∀ entry ∈ standard.methods, ∀ receiver args, receiver.typeName = entry.1.1 →
        entry.2.Safe config.limits (some receiver) args := by
  constructor
  · intro entry hentry args
    obtain ⟨c, hc, rfl⟩ := List.mem_map.mp hentry
    exact (Builtin.keeps_contracts c hc config.limits args).safe (missingArgument_not_tolerated.1 c hc)
  · intro entry hentry receiver args htype
    obtain ⟨m, hm, rfl⟩ := List.mem_map.mp hentry
    exact (Method.keeps_contracts m hm config.limits receiver args htype).safe (missingArgument_not_tolerated.2 m hm)

/-- A prefix is looked for in a tuple that does not hold texts only: the condition is decided, and the call is
declined. -/
theorem safe_startswith :
    let entry : (String × String) × Contract :=
      (("str", "startswith"), (Method.affixTest "startswith" List.isPrefixOf).2)
    let args : List Value := [.tuple [.str "a", .int 1]]
    entry ∈ standard.methods ∧ (Value.str "ab").typeName = entry.1.1 ∧
      entry.2.Safe ({} : Config).limits (some (.str "ab")) args ∧
      entry.2.evaluate ({} : Config).limits (some (.str "ab")) args = .ok none := by
  intro entry args
  have hentry : entry ∈ standard.methods :=
    List.mem_map.mpr ⟨Method.affixTest "startswith" List.isPrefixOf, by simp [Method.contracts], rfl⟩
  exact ⟨hentry, rfl, (safe_standard {}).2 entry hentry (.str "ab") args rfl, rfl⟩

def Regular (catalog : Catalog) : Prop :=
  ∀ name c, catalog.builtin? name = some c → ∀ args v, Value.AllRegular true args →
    c.call args = .ok v → v.Regular true

theorem regular_standard : standard.Regular := by
  intro name c hc args v hargs hv
  exact Builtin.regular_call c (mem_contracts_of_standard hc) args (Value.allRegular_iff.mp hargs) v hv

theorem tolerant_empty (limits : Limits) : empty.Tolerant limits := by
  refine ⟨fun name c hc => ?_, fun receiver name c hc => ?_⟩
  · cases hc
  · cases hc

end Catalog

end Speculator
