import ThreeAddress.Tree

/-!
# Samples

Small trees to try the compiler on.
-/

namespace ThreeAddress
set_option autoImplicit false

structure Sample where
  name : String
  description : String
  file : File

namespace Sample

def local32 (id : Int) (name : Bytes) : Var := ⟨id, name, .i32⟩

def lit (v : Int) : Expr := .num v .i32

def bin (op : Bytes) (x y : Expr) : Expr := .binary op x y .i32

def cmp (op : Bytes) (x y : Expr) : Expr := .binary op x y .bool

def set (v : Var) (x : Expr) : Stmt := .expr (.assign (some v) x)

def decl (name : Bytes) (ret : Width) (params : List Var) (body : List Stmt) : Decl :=
  ⟨⟨name, ret, params.map some⟩, some body⟩

def arith : List Decl :=
  let a := local32 0 "a"
  [decl "main" .i32 [] [
    set a (bin "+" (lit 2) (bin "*" (lit 3) (lit 4))),
    .ret (.var a)]]

def ifZero : List Decl :=
  let x := local32 0 "x"
  let y := local32 1 "y"
  [decl "f" .i32 [x] [
    set y (lit 0),
    .branch (cmp "==" (.var x) (lit 0)) (.block [set y (lit 1)]) .hole,
    .ret (.var y)]]

def loop : List Decl :=
  let n := local32 0 "n"
  let i := local32 1 "i"
  let s := local32 2 "s"
  [decl "sum" .i32 [n] [
    set s (lit 0),
    .forLoop (set i (lit 0)) (cmp "<" (.var i) (.var n))
        (set i (bin "+" (.var i) (lit 1))) (.block [
      .branch (cmp "==" (bin "%" (.var i) (lit 3)) (lit 0)) (.block [.continueLoop]) .hole,
      .branch (cmp ">" (.var s) (lit 100)) (.block [.breakLoop]) .hole,
      set s (.chain (.var s) [("+", .var i), ("-", lit 1)] .i32)]),
    .ret (.var s)]]

def forever : List Decl :=
  let x := local32 0 "x"
  [decl "forever" .i32 [x] [
    .whileLoop (lit 1) (.block [.ret (.var x)]),
    set x (bin "+" (.var x) (lit 1)),
    .ret (.var x)]]

def logic : List Decl :=
  let a := local32 0 "a"
  let b := local32 1 "b"
  let c := local32 2 "c"
  [decl "logic" .bool [a, b, c] [
    .ret (.logic "||" [.logic "&&" [.var a, .var b] .bool, .var c] .bool)]]

def calls : List Decl :=
  let a := local32 0 "a"
  let b := local32 1 "b"
  let add := decl "add" .i32 [a, b] [.ret (bin "+" (.var a) (.var b))]
  let addRef : FuncRef := ⟨"add", .i32, [.i32, .i32]⟩
  let puts : FuncRef := ⟨"puts", .void, [.ptr]⟩
  let hello : Stmt := .expr (.call (some puts) [.str "hello"])
  let sum (x y : Expr) : Expr := .call (some addRef) [x, y]
  [add, decl "main" .i32 [] [
    hello,
    .expr (sum (lit 1) (lit 2)),
    hello,
    .ret (sum (lit 3) (bin "*" (lit 4) (lit 5)))]]

def abs : List Decl :=
  let x := local32 0 "x"
  [decl "abs" .i32 [x] [
    .ret (.cond (cmp ">" (.var x) (lit 0)) (.var x) (.unary "-" (.var x) .i32) .i32)]]

def memory : List Decl :=
  let p : Var := ⟨0, "p", .ptr⟩
  let v := local32 1 "v"
  [decl "inc" .void [p] [
    set v (.load (.var p) .i32),
    .store (.var p) (bin "+" (.var v) (lit 1))]]

def all : List Sample := [
  ⟨"arith", "a = 2 + 3 * 4; return a", .ofDecls arith⟩,
  ⟨"if", "if x == 0 \x7b y = 1 \x7d; return y", .ofDecls ifZero⟩,
  ⟨"loop", "for loop with break and continue", .ofDecls loop⟩,
  ⟨"forever", "while 1 \x7b return x \x7d; dead tail", .ofDecls forever⟩,
  ⟨"logic", "short circuit && and ||", .ofDecls logic⟩,
  ⟨"calls", "calls, discarded results, string data", .ofDecls calls⟩,
  ⟨"abs", "ternary", .ofDecls abs⟩,
  ⟨"memory", "load and store", .ofDecls memory⟩]

def find? (name : String) : Option Sample := all.find? (·.name == name)

end Sample

end ThreeAddress
