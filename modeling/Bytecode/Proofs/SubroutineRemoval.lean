import Bytecode.Proofs.Limits

/-!
# Classes without subroutines

What is left of subroutines after a class was converted.

* `Member.LacksSubroutines`: the new code of a method, and what can be read and decoded of it;
* `ClassFile.Converts`: a method before and after;
* `reached_subroutines_removed`: where a call of a subroutine is reached, all instructions of subroutines are gone; code
  that is kept may have some, but none that can be reached.
-/

namespace Bytecode

/-- A method has this new code, laid out like this, and no instruction of subroutines in it.  Neither reading nor
decoding it is possible in all cases: tables can be too long to be counted, and a branch can name the end of the code,
where copies of instructions without an effect were left out. -/
structure Member.LacksSubroutines (m : Member) (pool : ConstantPool) (l : Layout) (new : Code) : Prop where
  plain : ∀ body, Body.decode new.bytes = .ok body → ∀ i ∈ body.toList, i.isOfSubroutine = false
  decodes_iff : (∃ body, Body.decode new.bytes = .ok body) ↔ l.NamesInside
  reads_iff : m.code? pool = .ok (some new) ↔ new.exceptionTable.length ≤ 65535 ∧ ∀ a ∈ new.attributes, a.Fits
  has_code : m.code? pool ≠ .ok none
  bytes_eq : ∀ code, m.code? pool = .ok (some code) → code.bytes = new.bytes

/-- What becomes of a method of a class. -/
inductive ClassFile.Converts (c : ClassFile) (m m' : Member) : Prop
  /-- A method without code stays as it is. -/
  | bodiless (hcode : m.code? c.constants = .ok none) (hsame : m' = m)
  /-- A method in which no call is reached is kept, with all that cannot be reached. -/
  | kept {code : Code} {method : Method} {v : Verified} (hcode : m.code? c.constants = .ok (some code))
      (hmethod : Method.ofMember c m code = .ok method) (hverify : method.verify = .ok v) (hcalls : ¬ v.ReachesCall)
      (hsame : m' = m)
      (hdead : ∀ body, Body.decode code.bytes = .ok body → ∀ i ∈ body.toList, i.isOfSubroutine = true →
        v.visited.contains i.position = false)
  /-- A method in which a call is reached loses all instructions of subroutines. -/
  | inlined {code new : Code} {method : Method} {v : Verified} {l : Layout}
      (hcode : m.code? c.constants = .ok (some code)) (hmethod : Method.ofMember c m code = .ok method)
      (hverify : method.verify = .ok v) (hcalls : v.ReachesCall) (hlayout : v.layout = .ok l)
      (hnew : v.inline code c.constants = .ok new) (hlacks : m'.LacksSubroutines c.constants l new)

/-- Where a call is reached, all instructions of subroutines are gone. -/
theorem ClassFile.Converts.lacks_of_reaches {c : ClassFile} {m m' : Member} {code : Code} {method : Method} {v : Verified}
    (h : c.Converts m m') (hcode : m.code? c.constants = .ok (some code)) (hmethod : Method.ofMember c m code = .ok method)
    (hverify : method.verify = .ok v) (hcalls : v.ReachesCall) :
    ∃ l new, v.inline code c.constants = .ok new ∧ m'.LacksSubroutines c.constants l new := by
  cases h with
  | bodiless hcode' => simp [hcode] at hcode'
  | kept hcode' hmethod' hverify' hcalls' =>
    obtain rfl := Option.some.inj (Except.ok.inj (hcode.symm.trans hcode'))
    obtain rfl := Except.ok.inj (hmethod.symm.trans hmethod')
    obtain rfl := Except.ok.inj (hverify.symm.trans hverify')
    exact absurd hcalls hcalls'
  | inlined hcode' hmethod' hverify' _ _ hnew hlacks =>
    obtain rfl := Option.some.inj (Except.ok.inj (hcode.symm.trans hcode'))
    obtain rfl := Except.ok.inj (hmethod.symm.trans hmethod')
    obtain rfl := Except.ok.inj (hverify.symm.trans hverify')
    exact ⟨_, _, hnew, hlacks⟩

theorem Conversion.converts_of_newCode {c : ClassFile} {m : Member} {recording : Bool} {code? : Option Code}
    (hpool : ConstantPool.Numbered c.constants.constants)
    (h : newCode {} (Settings.policy {} none) recording c m = .ok code?) :
    c.Converts m (converted {} (Settings.policy {} none) recording c m) := by
  unfold converted
  rw [h]
  rcases newCode_cases rfl h with ⟨hnone, rfl⟩ | ⟨code, method, v, hcode, hmethod, hverify, hcases⟩
  · exact .bodiless hnone rfl
  · obtain ⟨a, -, hdecode⟩ := Member.code?_eq_some.mp hcode
    have hlength := Code.length_lt_of_decode hdecode
    obtain rfl := Method.code_of_ofMember hmethod
    obtain ⟨setup, s, hsettled⟩ := Method.settled (Nat.lt_trans hlength (by decide)) hverify
    rw [wantsInlining_default] at hcases
    rcases hcases with ⟨hwants, new, hnew, rfl⟩ | ⟨hwants, rfl⟩
    · obtain ⟨l, hlayout, hshort, hdecodes, hplain⟩ := Verified.inline_plain hsettled.tiles hnew
      obtain ⟨hhas, hbytes⟩ := Member.bytes_of_replaceCode hpool hcode (Nat.lt_of_le_of_lt hshort (by decide))
      have hreads := (Member.code?_replaceCode_iff hpool hcode).trans (fits_newCode_iff rfl h)
      exact .inlined hcode hmethod hverify (hsettled.hasSubroutines_iff_reaches.mp hwants) hlayout hnew
        ⟨hplain, hdecodes, hreads, hhas, hbytes⟩
    · have hcalls : ¬ v.ReachesCall := by
        rw [← hsettled.hasSubroutines_iff_reaches, hwants]
        simp
      refine .kept hcode hmethod hverify hcalls rfl ?_
      intro body hbody i hi hsubroutine
      obtain ⟨index, hindex⟩ := List.mem_iff_getElem?.mp hi
      rw [Body.getElem?_toList, ← hsettled.body_of_decode hbody] at hindex
      rw [← Bool.not_eq_true]
      intro hvisited
      exact hcalls (hsettled.reachesCall_of_visited hindex hsubroutine hvisited)

-- `0 iconst_0; 1 ifeq 8; 4 goto 9; 7 astore_0; 8 return; 9 jsr 7`: the call becomes a branch to the end of the new code
example : (ClassFile.ofBytes (ClassFile.bytesOfBodies
      [⟨1, 1, [0x03, 0x99, 0, 7, 0xa7, 0, 5, 0x4b, 0xb1, 0xa8, 0xff, 0xfe], [], []⟩])).toOption.any (fun c =>
    c.methods[0]?.any fun m => (m.verifyWithin c 12).any fun found =>
      (found.2.inline found.1 c.constants).toOption.any fun new => (Body.decode new.bytes).toOption = none) = true := by
  decide +kernel

/-! ## All methods of a class -/

/-- **Subroutines that are reached are removed from a class.**  Where nothing fails, nothing changes but methods in which
a call of a subroutine is reached.  Their new code has neither `jsr` nor `ret`.  Other methods keep what they have of
them, which control does not reach. -/
theorem reached_subroutines_removed {bytes : List UInt8} {c : ClassFile} {recording : Bool} {report : Report}
    (hread : ClassFile.ofBytes bytes = .ok c) (hresult : (c.convert {} none recording).value.result = .ok report) :
    ∃ methods, (c.convert {} none recording).value.classFile = { c with methods } ∧
      List.Forall₂ c.Converts c.methods methods := by
  have hafter := Conversion.after_of_result hresult
  refine ⟨_, hafter.classFile_eq, ?_⟩
  rw [List.forall₂_map_right_iff, List.forall₂_same]
  intro m hm
  obtain ⟨code?, hcode⟩ := hafter.codes rfl m hm
  exact Conversion.converts_of_newCode (ClassFile.numbered_of_ofBytes hread) hcode

/-- A call that is not reached stays in the class. -/
theorem dead_call_kept :
    ∃ c report m code body i, ClassFile.ofBytes (ClassFile.bytesOfBodies [.withDeadCall]) = .ok c ∧
      (c.convert {} none false).value.result = .ok report ∧ report.failures = [] ∧
      (c.convert {} none false).value.classFile.methods[0]? = some m ∧
      m.code? (c.convert {} none false).value.classFile.constants = .ok (some code) ∧
      Body.decode code.bytes = .ok body ∧ i ∈ body.toList ∧ i.isOfSubroutine = true := by
  have htest : (ClassFile.ofBytes (ClassFile.bytesOfBodies [.withDeadCall])).toOption.any (fun c =>
      c.methods.length = 1 && c.methods[0]?.any fun m => (m.verifyWithin c 2).any fun found =>
        !found.2.hasSubroutines && (Body.decode found.1.bytes).toOption.any fun body =>
          body.toList.any Instruction.isOfSubroutine) = true := by decide +kernel
  simp only [Option.any_eq_true, Bool.and_eq_true, decide_eq_true_eq, List.any_eq_true, Bool.not_eq_true'] at htest
  obtain ⟨c, hread, hlength, m, hm, ⟨code, v⟩, hwithin, hnone, body, hbody, i, hi, hsubroutine⟩ := htest
  have hread := toOption_eq_some.mp hread
  obtain ⟨method, hcode, hmethod, hverify⟩ := Member.verify_of_within hwithin
  have hnew := Conversion.newCode_default hwithin false
  rw [hnone, if_neg (by simp)] at hnew
  obtain ⟨first, hmethods⟩ := List.length_eq_one_iff.mp hlength
  obtain rfl : first = m := by simpa [hmethods] using hm
  obtain ⟨report, hresult, hfailures⟩ := @Conversion.convert_goes {} false c none (by simp [hmethods, hnew])
  have hclass := (Conversion.after_of_result hresult).classFile_eq
  refine ⟨c, report, first, code, body, i, hread, hresult, hfailures, ?_, ?_, toOption_eq_some.mp hbody, hi, hsubroutine⟩
  · simp [hclass, hmethods, Conversion.converted, hnew]
  · rw [hclass]
    exact hcode

/-- One body is kept, the other one gets new code, which can be read and decoded. -/
theorem twoBodies_converted :
    ∃ c report methods, ClassFile.ofBytes (ClassFile.bytesOfBodies [.withDeadCall, .withCall]) = .ok c ∧
      (c.convert {} none true).value.result = .ok report ∧
      (c.convert {} none true).value.classFile = { c with methods } ∧ List.Forall₂ c.Converts c.methods methods ∧
      ∃ m new body, methods[1]? = some m ∧ m.code? c.constants = .ok (some new) ∧ Body.decode new.bytes = .ok body ∧
        ∀ i ∈ body.toList, i.isOfSubroutine = false := by
  have htest : (ClassFile.ofBytes (ClassFile.bytesOfBodies [.withDeadCall, .withCall])).toOption.any (fun c =>
      c.methods.all (fun m => (m.verifyWithin c 8).any fun found =>
        !found.2.hasSubroutines || (found.2.inline found.1 c.constants).toOption.isSome) &&
      c.methods[1]?.any fun m => (m.verifyWithin c 8).any fun found => (found.2.body.get? 0).any (fun jsr =>
        jsr.flow = .jsr 4 && found.2.visited.contains jsr.position) &&
        (found.2.inline found.1 c.constants).toOption.all fun new => (Body.decode new.bytes).toOption.isSome &&
          new.exceptionTable = [] && new.attributes = []) = true := by decide +kernel
  simp only [Option.any_eq_true, Bool.and_eq_true, decide_eq_true_eq, List.all_eq_true, Bool.or_eq_true,
    Option.isSome_iff_exists, toOption_eq_some, Option.all_eq_true] at htest
  obtain ⟨c, hread, hall, m, hm, ⟨code, v⟩, hwithin, ⟨jsr, hjsr, hcall, hvisited⟩, hbodies⟩ := htest
  have hcodes : ∀ m ∈ c.methods, ∃ code?, Conversion.newCode {} (Settings.policy {} none) true c m = .ok code? := by
    intro m hm
    obtain ⟨⟨code, v⟩, hwithin, hcases⟩ := hall m hm
    rw [Conversion.newCode_default hwithin]
    split
    · rename_i hwants
      rcases hcases with hnone | ⟨new, hnew⟩
      · simp [hwants] at hnone
      · exact ⟨some new, map_eq_ok.mpr ⟨new, hnew, rfl⟩⟩
    · exact ⟨none, rfl⟩
  obtain ⟨report, hresult, -⟩ := Conversion.convert_goes hcodes
  obtain ⟨methods, hclass, hconverts⟩ := reached_subroutines_removed hread hresult
  refine ⟨c, report, methods, hread, hresult, hclass, hconverts, ?_⟩
  obtain ⟨m', hm', hconverted⟩ := forall₂_getElem? hconverts.flip hm
  obtain ⟨method, hcode, hmethod, hverify⟩ := Member.verify_of_within hwithin
  obtain ⟨l, new, hnew, hlacks⟩ :=
    hconverted.lacks_of_reaches hcode hmethod hverify ⟨0, jsr, 4, hjsr, hcall, hvisited⟩
  obtain ⟨⟨⟨body, hbody⟩, htable⟩, hattributes⟩ := hbodies new hnew
  exact ⟨m', new, body, hm', hlacks.reads_iff.mpr (by simp [htable, hattributes]), hbody, hlacks.plain body hbody⟩

end Bytecode
