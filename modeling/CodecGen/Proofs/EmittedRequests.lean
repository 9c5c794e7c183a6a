import CodecGen.Proofs.WrittenCode
set_option autoImplicit false
/-!
The code of requests and their replies, one after another in a single run.
-/
namespace CodecGen.Emit
open Schema

/-- The code for a whole message that an object holds: its members are bound, and then the fields are
copied. -/
def Copies (dir : Direction) (ns : List String) (object : String) (fields : List Field) (n : Nat)
    (out : List Stmt) (m : Nat) : Prop :=
  ∃ body, out = (bindFields object fields ⟨[], n⟩).1 ++ body ∧
    Written dir ns [] (boundBy fields) (n + asideCount object fields)
      (ingredientsIn (boundBy fields) fields) body m

inductive CodeOf (className : String) : Nat → RequestCode → Nat → Prop where
  | request {n m : Nat} {r : Request} {encoder : List Stmt} (hreply : r.reply = none)
      (h : Copies .encode ["x11", className] "request" r.fields n encoder m) :
      CodeOf className n ⟨r, encoder, none⟩ m
  | reply {n k m : Nat} {r : Request} {reply : Reply} {encoder decoder : List Stmt}
      (hreply : r.reply = some reply)
      (h : Copies .encode ["x11", className] "request" r.fields n encoder k)
      (hd : Copies .decode ["x11"] "(*reply)" reply.fields k decoder m) :
      CodeOf className n ⟨r, encoder, some decoder⟩ m

inductive CodesOf (className : String) : Nat → List RequestCode → Nat → Prop where
  | nil {n : Nat} : CodesOf className n [] n
  | cons {n k m : Nat} {code : RequestCode} {codes : List RequestCode}
      (h : CodeOf className n code k) (hrest : CodesOf className k codes m) :
      CodesOf className n (code :: codes) m

theorem CodesOf.of_mem {className : String} {n m : Nat} {codes : List RequestCode}
    (h : CodesOf className n codes m) {code : RequestCode} (hcode : code ∈ codes) :
    ∃ n m, CodeOf className n code m := by
  induction h with
  | nil => cases hcode
  | cons hfirst _ ih =>
    rcases List.mem_cons.mp hcode with rfl | hrest
    · exact ⟨_, _, hfirst⟩
    · exact ih hrest

theorem copyContainer_written (site : Site) (shape : Shape) (fields : List Field) (object : String)
    (s : Scope) (n : Nat) :
    Emits s n (fun out m => ∃ body, out = (bindFields object fields ⟨s, n⟩).1 ++ body ∧
      Written site.dir site.ns [] (boundBy fields ++ s) (n + asideCount object fields)
        (ingredientsIn (boundBy fields ++ s) fields) body m)
      (copyContainer site shape fields object) := by
  have hbody := copyFields_written fields site (requestHead? shape fields) [] (boundBy fields ++ s)
    (n + asideCount object fields) mem_scope_of_binds
  apply Emits.bind (.withFields hbody)
  rintro ⟨_, body⟩ m ⟨rfl, hbody⟩
  exact .pure ⟨body, rfl, hbody⟩

theorem copyContainer_copies (site : Site) (shape : Shape) (fields : List Field) (object : String)
    (n : Nat) :
    Emits [] n (fun out m => Copies site.dir site.ns object fields n out m)
      (copyContainer site shape fields object) := by
  have hwritten := copyContainer_written site shape fields object [] n
  rw [List.append_nil] at hwritten
  exact hwritten

theorem compileRequest_codeOf (className : String) (r : Request) (n : Nat) :
    Emits [] n (fun code m => code.request = r ∧ CodeOf className n code m)
      (compileRequest className r) := by
  have hencode : Emits [] n (fun out m => Copies .encode ["x11", className] "request" r.fields n out m)
      (encodeRequest className r) := by
    apply Emits.bind (.freshScope (Q := fun _ k => k = n) rfl)
    rintro _ k rfl
    exact copyContainer_copies _ _ _ _ _
  unfold compileRequest
  apply Emits.bind hencode
  intro encoder k hencoder
  split
  · rename_i hreply
    exact .pure ⟨rfl, .request hreply hencoder⟩
  · rename_i reply hreply
    have hdecode : Emits [] k (fun out m => Copies .decode ["x11"] "(*reply)" reply.fields k out m)
        (decodeReply r reply) := by
      apply Emits.bind (.freshScope (Q := fun _ j => j = k) rfl)
      rintro _ j rfl
      exact copyContainer_copies _ _ _ _ _
    apply Emits.bind hdecode
    intro decoder m hdecoder
    exact .pure ⟨rfl, .reply hreply hencoder hdecoder⟩

theorem compileRequests_codesOf (className : String) (requests : List Request) (n : Nat) :
    Emits [] n (fun codes m => codes.map (·.request) = requests ∧ CodesOf className n codes m)
      (compileRequests className requests) := by
  induction requests generalizing n with
  | nil => exact .pure ⟨rfl, .nil⟩
  | cons r rest ih =>
    apply Emits.bind (compileRequest_codeOf className r n)
    rintro code k ⟨rfl, hcode⟩
    apply Emits.bind (ih k)
    rintro codes m ⟨rfl, hcodes⟩
    exact .pure ⟨rfl, .cons hcode hcodes⟩

end CodecGen.Emit
